import Flinstone.Sched.JobStages

/-! # Every job is run once -/

namespace Flinstone.Sched
open List

variable {L M I : Type} {cmds : Commands L M I} {S W : Type}

def Pool.Takes (s : Pool cmds S W) (priority : Int) : Prop := priorityValid priority = true ∧ pqCount s.pq < 128

instance (s : Pool cmds S W) (priority : Int) : Decidable (s.Takes priority) := inferInstanceAs (Decidable (_ ∧ _))

namespace Pool

def prepare (s : Pool cmds S W) (j : Nat) (priority : Int) : Pool cmds S W :=
  (s.touch j).setJob j fun job => { job with priority, pqHandle := -1 }

structure Like (s s' : Pool cmds S W) : Prop where
  calls : s'.calls = s.calls
  worker : s'.worker = s.worker
  memory : s'.memory = s.memory
  lines : ∀ j, (s'.jobs j).bind Job.commandStr = (s.jobs j).bind Job.commandStr

namespace Like
variable {s s' s'' : Pool cmds S W}

theorem trans (first : Like s s') (second : Like s' s'') : Like s s'' where
  calls := second.calls.trans first.calls
  worker := second.worker.trans first.worker
  memory := second.memory.trans first.memory
  lines := fun j => (second.lines j).trans (first.lines j)

theorem note (s : Pool cmds S W) (event : PoolEvent) : Like s (s.note event) := ⟨rfl, rfl, rfl, fun _ => rfl⟩

theorem setJob (s : Pool cmds S W) (j : Nat) (change : Job L → Job L)
    (keeps : ∀ job, (change job).commandStr = job.commandStr) : Like s (s.setJob j change) := by
  refine ⟨rfl, rfl, rfl, fun k => ?_⟩
  change (Function.update s.jobs j ((s.jobs j).map change) k).bind _ = _
  rw [Function.update_apply]
  split
  · next here =>
      rw [here]
      cases s.jobs j with
      | none => rfl
      | some job => exact keeps job
  · rfl

theorem prepare (s : Pool cmds S W) (j : Nat) (priority : Int) : Like s (s.prepare j priority) :=
  (note s _).trans (setJob _ j _ fun _ => rfl)

theorem accept (s : Pool cmds S W) (j : Nat) (priority : Int) (h : PqHandle) (pq : PriorityQueue Unit Nat) :
    Like s (s.accept j priority h pq) := by
  have marked := setJob s j (fun job => { job with pqHandle := h }) fun _ => rfl
  unfold Pool.accept
  split
  · exact ⟨rfl, rfl, rfl, fun _ => rfl⟩
  · exact ⟨rfl, rfl, rfl, marked.lines⟩

theorem queueJobPriority (s : Pool cmds S W) (j : Nat) (priority : Int) : Like s (s.queueJobPriority j priority) := by
  have prepared := prepare s j priority
  unfold Pool.queueJobPriority
  dsimp only
  split
  · exact prepared
  · refine trans ?_ (accept ..)
    split
    · exact prepared
    · exact prepared.trans (note ..)

end Like

variable {s : Pool cmds S W} {j : Nat} {priority : Int}

theorem queueJobPriority_refused (refused : ¬ s.Takes priority) :
    s.queueJobPriority j priority = s.prepare j priority := by
  unfold queueJobPriority
  dsimp only
  split
  · rfl
  · next room =>
      have invalid : priorityValid priority = false := by
        rw [Bool.eq_false_iff]
        exact fun valid => refused ⟨valid, not_le.mp room⟩
      rw [pqPush_refused invalid, if_pos rfl, accept, if_pos (show (-1 : PqHandle).msb = true by decide)]
      rfl

theorem queueJobPriority_taken (takes : s.Takes priority) (taken : (pqPush s.pq priority (some ()) (some j)).1 ≠ -1) :
    s.queueJobPriority j priority = ((s.prepare j priority).note (.reached .accepted j)).accept j priority
      (pqPush s.pq priority (some ()) (some j)).1 (pqPush s.pq priority (some ()) (some j)).2 := by
  have room : ¬ pqCount (s.prepare j priority).pq ≥ 128 := not_le.mpr takes.2
  change (if pqCount (s.prepare j priority).pq ≥ 128 then s.prepare j priority else _) = _
  rw [if_neg room]
  change accept (if (pqPush s.pq priority (some ()) (some j)).1 = -1 then _ else _) _ _ _ _ = _
  rw [if_neg taken]
  rfl

theorem accept_setCall [DecidableEq S] [DecidableEq W] (s : Pool cmds S W) (j : Nat) (priority : Int)
    (h : PqHandle) (pq : PriorityQueue Unit Nat) (t : S ⊕ W) (call : Submit) :
    (s.accept j priority h pq).setCall t call = (s.setCall t call).accept j priority h pq := by
  unfold accept
  split <;> rfl

section Submit
variable [DecidableEq S] [DecidableEq W] {s : Pool cmds S W} {granted : JobMemory}

theorem submit_given (given : granted.node = true) (t : S ⊕ W) (line : L) (priority : Int) :
    s.submit t granted line priority = { s with
      jobs := Function.update s.jobs s.nextJob (some ⟨if granted.line then some line else none, false, 0, 0⟩)
      nextJob := s.nextJob + 1
      calls := Function.update s.calls t (.created s.nextJob priority) } := by
  rw [submit, createJob, if_pos given]
  rfl

theorem submit_denied (denied : granted.node = false) (t : S ⊕ W) (line : L) (priority : Int) :
    s.submit t granted line priority = s := by
  rw [submit, createJob, if_neg (by rw [denied]; nofun)]

end Submit

def entry (s : Pool cmds S W) (j : Nat) (layer : Int) : WorkerPlace cmds.Local :=
  match (s.jobs j).bind Job.commandStr with
  | some line => .running j layer (cmds.start line)
  | none => .completing j layer

theorem entry_duty (s : Pool cmds S W) (j : Nat) (layer : Int) : (s.entry j layer).duty = some (j, true) := by
  unfold entry
  split <;> rfl

inductive Moves [DecidableEq S] [DecidableEq W] (s : Pool cmds S W) (stage : Nat → Stage W) :
    PoolAction S W L I → Pool cmds S W → (Nat → Stage W) → Prop
  | decline (t : S) (granted : JobMemory) (line : L) (priority : Int) :
      Moves s stage (.submit t granted line priority) s stage
  | outside (t : S ⊕ W) (here : s.calls t = .outside) : Moves s stage (.proceed t) s stage
  | rest (w : W) (input : I) (granted : JobMemory)
      (on : s.calls (.inr w) = .outside → s.worker w = .loop → s.shuttingDown = false) :
      Moves s stage (.work w input granted) s stage
  | create (t : S) (granted : JobMemory) (line : L) (priority : Int) (idle : s.calls (.inl t) = .outside)
      (given : granted.node = true) :
      Moves s stage (.submit t granted line priority) (s.submit (.inl t) granted line priority)
        (Function.update stage s.nextJob .created)
  | queue (t : S ⊕ W) (j : Nat) (priority : Int) (here : s.calls t = .created j priority) :
      Moves s stage (.proceed t) ((s.queueJobPriority j priority).setCall t (.waiting j))
        (Function.update stage j (if s.Takes priority then .queued else .lost))
  | wait (t : S ⊕ W) (j : Nat) (here : s.calls t = .waiting j) (pending : stage j ≠ .done) :
      Moves s stage (.proceed t) (s.touch j) stage
  | finish (t : S ⊕ W) (j : Nat) (here : s.calls t = .waiting j) (done : stage j = .done) :
      Moves s stage (.proceed t) ((s.touch j).setCall t (.finished j)) stage
  | free (t : S ⊕ W) (j : Nat) (here : s.calls t = .finished j) :
      Moves s stage (.proceed t) (((s.freeJob j).note (.returned j)).setCall t .outside)
        (Function.update stage j .freed)
  | look (w : W) (input : I) (granted : JobMemory) (idle : s.calls (.inr w) = .outside)
      (free : (s.worker w).duty = none) (here : s.worker w ≠ .exited)
      (on : s.worker w = .loop → s.shuttingDown = false) :
      Moves s stage (.work w input granted) (s.setWorker w .loop) stage
  | pop (w : W) (input : I) (granted : JobMemory) (idle : s.calls (.inr w) = .outside)
      (free : (s.worker w).duty = none) (here : s.worker w ≠ .exited)
      (on : s.worker w = .loop → s.shuttingDown = false) (j : Nat) (layer : Int)
      (pq : PriorityQueue Unit Nat) (queued : stage j = .queued) :
      Moves s stage (.work w input granted) ({ s with pq }.setWorker w (.popped j layer))
        (Function.update stage j (.busy w false))
  | exit (w : W) (input : I) (granted : JobMemory) (idle : s.calls (.inr w) = .outside)
      (here : s.worker w = .loop) (off : s.shuttingDown = true) :
      Moves s stage (.work w input granted) (s.setWorker w .exited) stage
  | start (w : W) (input : I) (granted : JobMemory) (idle : s.calls (.inr w) = .outside)
      (j : Nat) (layer : Int) (here : s.worker w = .popped j layer) :
      Moves s stage (.work w input granted) (((s.note (.reached .started j)).touch j).setWorker w (s.entry j layer))
        (Function.update stage j (.busy w true))
  | run (w : W) (input : I) (granted : JobMemory) (idle : s.calls (.inr w) = .outside)
      (j : Nat) (layer : Int) (pc pc' : cmds.Local) (memory : M)
      (here : s.worker w = .running j layer pc) (next : cmds.next pc s.memory input = .on pc' memory) :
      Moves s stage (.work w input granted) ({ s.touch j with memory }.setWorker w (.running j layer pc')) stage
  | nest (w : W) (input : I) (granted : JobMemory) (idle : s.calls (.inr w) = .outside)
      (j : Nat) (layer : Int) (pc pc' : cmds.Local) (line : L)
      (here : s.worker w = .running j layer pc)
      (next : cmds.next pc s.memory input = .submit line pc') (given : granted.node = true) :
      Moves s stage (.work w input granted)
        (((s.touch j).setWorker w (.running j layer pc')).submit (.inr w) granted line 0)
        (Function.update stage s.nextJob .created)
  | fail (w : W) (input : I) (granted : JobMemory) (idle : s.calls (.inr w) = .outside)
      (j : Nat) (layer : Int) (pc pc' : cmds.Local) (line : L)
      (here : s.worker w = .running j layer pc) (next : cmds.next pc s.memory input = .submit line pc')
      (denied : granted.node = false) :
      Moves s stage (.work w input granted) ((s.touch j).setWorker w (.running j layer pc')) stage
  | leave (w : W) (input : I) (granted : JobMemory) (idle : s.calls (.inr w) = .outside)
      (j : Nat) (layer : Int) (pc : cmds.Local) (memory : M)
      (here : s.worker w = .running j layer pc) (next : cmds.next pc s.memory input = .done memory) :
      Moves s stage (.work w input granted) ({ s.touch j with memory }.setWorker w (.completing j layer)) stage
  | complete (w : W) (input : I) (granted : JobMemory) (idle : s.calls (.inr w) = .outside)
      (j : Nat) (layer : Int) (here : s.worker w = .completing j layer) :
      Moves s stage (.work w input granted)
        ((((s.touch j).setJob j fun job => { job with done := true }).note (.reached .completed j)).setWorker w
          (.scanning layer)) (Function.update stage j .done)
  | shutDown : Moves s stage .shutDown { s with shuttingDown := true } stage

end Pool

theorem layersFrom_valid (first : Int) : ∀ layer ∈ layersFrom first, priorityValid layer = true := by
  intro layer member
  have listed := mem_of_mem_filter member
  revert listed
  simp only [mem_cons, not_mem_nil, or_false]
  rintro (rfl | rfl | rfl | rfl) <;> decide

structure Tracks (s : Pool cmds S W) (stage : Nat → Stage W) : Prop where
  line : ∃ cells, Line s.pq cells stage
  records : Records s.jobs s.nextJob stage
  duties : Duties s.worker stage
  callers : Callers s.calls stage
  logged : Logged s.log stage

namespace Tracks
variable {s : Pool cmds S W} {stage : Nat → Stage W} {j : Nat}

theorem start (raw : PriorityQueue Unit Nat) (memory : M) :
    Tracks (Pool.start cmds raw memory : Pool cmds S W) fun _ => .unborn where
  line := ⟨fun _ => [], shows_init Prod.mk raw, by simp, nodup_nil⟩
  records := ⟨fun j => iff_of_true (Nat.zero_le j) rfl, fun _ => rfl, nofun⟩
  duties := fun _ _ _ => iff_of_false nofun nofun
  callers := ⟨fun _ => trivial, nofun, nofun⟩
  logged := ⟨orderly_nil, fun m _ => iff_of_false nofun (by cases m <;> simp [Milestone.rank, Stage.progress])⟩

theorem touch (tracks : Tracks s stage) (live : stage j ≠ .freed) : Tracks (s.touch j) stage :=
  { tracks with logged := tracks.logged.touch live }

theorem setJob (tracks : Tracks s stage) (change : Job L → Job L) (keeps : ∀ job, (change job).done = job.done) :
    Tracks (s.setJob j change) stage :=
  { tracks with records := tracks.records.rewrite change keeps }

theorem memory (tracks : Tracks s stage) (memory : M) : Tracks { s with memory } stage := { tracks with }

theorem shutDown (tracks : Tracks s stage) : Tracks { s with shuttingDown := true } stage := { tracks with }

theorem accept {pq : PriorityQueue Unit Nat} (tracks : Tracks { s with pq } stage) (priority : Int)
    (h : PqHandle) : Tracks (s.accept j priority h pq) stage := by
  unfold Pool.accept
  split
  · exact tracks
  · obtain ⟨cells, line⟩ := tracks.line
    have records := tracks.records.rewrite (j := j) (fun job => { job with pqHandle := h }) fun _ => rfl
    split
    · exact { tracks with line := ⟨cells, line.setQuantum h 100⟩, records }
    · exact { tracks with records }

variable {t : S ⊕ W} {w : W} {place : WorkerPlace cmds.Local} {priority layer : Int}

theorem call_fits (tracks : Tracks s stage) {call : Submit} (here : s.calls t = call) : call.Fits stage :=
  here ▸ tracks.callers.fits t

theorem waiting_ne_freed (tracks : Tracks s stage) (here : s.calls t = .waiting j) : stage j ≠ .freed := by
  intro freed
  have awaited : (stage j).awaited = true := tracks.call_fits here
  rw [freed] at awaited
  cases awaited

theorem on_duty (tracks : Tracks s stage) {b : Bool} (duty : (s.worker w).duty = some (j, b)) : stage j = .busy w b :=
  (tracks.duties w j b).mpr duty

theorem done_iff (tracks : Tracks s stage) (live : (stage j).live = true) :
    (s.jobs j).any Job.done = true ↔ stage j = .done := by
  have found := tracks.records.live j
  rw [live, Option.isSome_iff_exists] at found
  obtain ⟨job, found⟩ := found
  rw [found, Option.any_some]
  exact tracks.records.done j job found

theorem prepare (tracks : Tracks s stage) (live : stage j ≠ .freed) (priority : Int) :
    Tracks (s.prepare j priority) stage :=
  (tracks.touch live).setJob _ fun _ => rfl

variable [DecidableEq W]

theorem rest (tracks : Tracks s stage) (same : place.duty = (s.worker w).duty) : Tracks (s.setWorker w place) stage :=
  { tracks with duties := tracks.duties.rest same }

variable {w : W}

theorem scan (tracks : Tracks s stage) (free : (s.worker w).duty = none) {layers : List Int}
    (valid : ∀ layer ∈ layers, priorityValid layer = true) :
    s.scan w layers = s.setWorker w .loop ∧ Tracks (s.scan w layers) stage ∨
    ∃ j layer pq, s.scan w layers = { s with pq }.setWorker w (.popped j layer) ∧ stage j = .queued ∧
      Tracks (s.scan w layers) (Function.update stage j (.busy w false)) := by
  obtain ⟨cells, line⟩ := tracks.line
  unfold Pool.scan
  rcases line.scan valid with none | ⟨layer, task, pq, j, found, fn, arg, queued, popped⟩
  · rw [none]
    exact .inl ⟨rfl, tracks.rest (by rw [free]; rfl)⟩
  · right
    rw [found]
    simp only [fn, arg]
    obtain ⟨cells', line⟩ := popped (.busy w false) nofun
    refine ⟨j, layer, pq, rfl, queued, ?_⟩
    exact {
      line := ⟨cells', line⟩
      records := tracks.records.move (by rw [queued]; rfl) (by rw [queued]; nofun) rfl nofun
      duties := tracks.duties.change (by rw [free]; nofun) (by rw [queued]; nofun)
        (by simp [WorkerPlace.duty, eq_comm]) (by rintro _ _ ⟨⟩; rfl)
      callers := tracks.callers.move (by rw [queued]; rfl) (by rw [queued]; nofun) rfl
      logged := tracks.logged.move (by rw [queued]; rfl) }

theorem start_job (tracks : Tracks s stage) (duty : (s.worker w).duty = some (j, false))
    (started : place.duty = some (j, true)) :
    Tracks (((s.note (.reached .started j)).touch j).setWorker w place) (Function.update stage j (.busy w true)) := by
  have busy := tracks.on_duty duty
  obtain ⟨cells, line⟩ := tracks.line
  exact {
    line := ⟨cells, line.move (by rw [busy]; nofun) nofun⟩
    records := tracks.records.move (by rw [busy]; rfl) (by rw [busy]; nofun) rfl nofun
    duties := tracks.duties.change (by rw [duty]; rintro _ _ ⟨⟩; rfl) (by rw [busy]; rintro _ _ ⟨⟩; rfl)
      (by simp [started, eq_comm]) (by rintro _ _ ⟨⟩; rfl)
    callers := tracks.callers.move (by rw [busy]; rfl) (by rw [busy]; nofun) rfl
    logged := (tracks.logged.advance .started (by rw [busy]; rfl) rfl).touch
      (by rw [Function.update_self]; nofun) }

theorem complete (tracks : Tracks s stage) (duty : (s.worker w).duty = some (j, true)) (free : place.duty = none) :
    Tracks ((((s.touch j).setJob j fun job => { job with done := true }).note
      (.reached .completed j)).setWorker w place) (Function.update stage j .done) := by
  have busy := tracks.on_duty duty
  obtain ⟨cells, line⟩ := tracks.line
  have touched := (tracks.touch (j := j) (by rw [busy]; nofun)).logged
  exact {
    line := ⟨cells, line.move (by rw [busy]; nofun) nofun⟩
    records := tracks.records.complete (by rw [busy]; rfl)
    duties := tracks.duties.change (by rw [duty]; rintro _ _ ⟨⟩; rfl) (by rw [busy]; rintro _ _ ⟨⟩; rfl)
      (by simp [free]) nofun
    callers := tracks.callers.move (by rw [busy]; rfl) (by rw [busy]; nofun) rfl
    logged := touched.advance .completed (by rw [busy]; rfl) rfl }

variable [DecidableEq S] {t : S ⊕ W}

theorem create (tracks : Tracks s stage) (idle : s.calls t = .outside) {granted : JobMemory}
    (given : granted.node = true) (line : L) (priority : Int) :
    Tracks (s.submit t granted line priority) (Function.update stage s.nextJob .created) := by
  have unborn := (tracks.records.unborn s.nextJob).mp le_rfl
  rw [Pool.submit_given given]
  obtain ⟨cells, line⟩ := tracks.line
  exact {
    line := ⟨cells, line.move (by rw [unborn]; nofun) nofun⟩
    records := tracks.records.create _ rfl
    duties := tracks.duties.move (by rw [unborn]; nofun) nofun
    callers := tracks.callers.create idle unborn priority
    logged := tracks.logged.move (by rw [unborn]; rfl) }

theorem refuse (tracks : Tracks s stage) (here : s.calls t = .created j priority) (refused : ¬ s.Takes priority) :
    Tracks ((s.queueJobPriority j priority).setCall t (.waiting j)) (Function.update stage j .lost) := by
  have created : stage j = .created := tracks.call_fits here
  have held : (s.calls t).job = some j := by rw [here]; rfl
  have prepared := tracks.prepare (j := j) (by rw [created]; nofun) priority
  obtain ⟨cells, line⟩ := prepared.line
  rw [Pool.queueJobPriority_refused refused]
  exact {
    line := ⟨cells, line.move (by rw [created]; nofun) nofun⟩
    records := prepared.records.move (by rw [created]; rfl) (by rw [created]; nofun) rfl nofun
    duties := prepared.duties.move (by rw [created]; nofun) nofun
    callers := prepared.callers.rehold held rfl (by simp [Submit.Fits, Stage.awaited])
      fun _ => by rw [created]; rfl
    logged := prepared.logged.move (by rw [created]; rfl) }

theorem take (tracks : Tracks s stage) (here : s.calls t = .created j priority) (takes : s.Takes priority) :
    Tracks ((s.queueJobPriority j priority).setCall t (.waiting j)) (Function.update stage j .queued) := by
  have created : stage j = .created := tracks.call_fits here
  have held : (s.calls t).job = some j := by rw [here]; rfl
  have prepared := tracks.prepare (j := j) (by rw [created]; nofun) priority
  obtain ⟨cells, line⟩ := tracks.line
  obtain ⟨taken, pushed⟩ := line.push (j := j) (by rw [created]; nofun) takes.2 takes.1
  rw [Pool.queueJobPriority_taken takes taken, Pool.accept_setCall]
  refine accept ?_ priority _
  exact {
    line := ⟨_, pushed⟩
    records := prepared.records.move (by rw [created]; rfl) (by rw [created]; nofun) rfl nofun
    duties := prepared.duties.move (by rw [created]; nofun) nofun
    callers := prepared.callers.rehold held rfl (by simp [Submit.Fits, Stage.awaited])
      fun _ => by rw [created]; rfl
    logged := prepared.logged.advance .accepted (by rw [created]; rfl) rfl }

theorem finish (tracks : Tracks s stage) (here : s.calls t = .waiting j) (done : stage j = .done) :
    Tracks (s.setCall t (.finished j)) stage := by
  have callers : Callers (Function.update s.calls t (.finished j)) (Function.update stage j (stage j)) :=
    tracks.callers.rehold (by rw [here]; rfl) rfl (by simpa [Submit.Fits] using done) id
  rw [Function.update_eq_self] at callers
  exact { tracks with callers }

theorem free (tracks : Tracks s stage) (here : s.calls t = .finished j) :
    Tracks (((s.freeJob j).note (.returned j)).setCall t .outside) (Function.update stage j .freed) := by
  have done : stage j = .done := tracks.call_fits here
  obtain ⟨cells, line⟩ := tracks.line
  have touched := (tracks.touch (j := j) (by rw [done]; nofun)).logged
  exact {
    line := ⟨cells, line.move (by rw [done]; nofun) nofun⟩
    records := tracks.records.free (by rw [done]; rfl)
    duties := tracks.duties.move (by rw [done]; nofun) nofun
    callers := tracks.callers.free (by rw [here]; rfl)
    logged := (touched.advance .freed (by rw [done]; rfl) rfl).return_ (Function.update_self ..) }

theorem proceed (tracks : Tracks s stage) (t : S ⊕ W) :
    ∃ stage', Tracks (s.proceed t) stage' ∧ s.Moves stage (.proceed t) (s.proceed t) stage' := by
  unfold Pool.proceed
  split
  · next here => exact ⟨stage, tracks, .outside t here⟩
  · next j priority here =>
      refine ⟨_, ?_, .queue t j priority here⟩
      split
      · next takes => exact tracks.take here takes
      · next refused => exact tracks.refuse here refused
  · next j here =>
      have touched := tracks.touch (tracks.waiting_ne_freed here)
      have live : (stage j).live = true := Stage.live_of_awaited (tracks.call_fits here)
      dsimp only
      split
      · next done =>
          have done := (touched.done_iff live).mp done
          exact ⟨stage, touched.finish here done, .finish t j here done⟩
      · next pending =>
          rw [touched.done_iff live] at pending
          exact ⟨stage, touched, .wait t j here pending⟩
  · next j here => exact ⟨_, tracks.free here, .free t j here⟩

theorem scanned (tracks : Tracks s stage) (idle : s.calls (.inr w) = .outside) (free : (s.worker w).duty = none)
    (here : s.worker w ≠ .exited) (on : s.worker w = .loop → s.shuttingDown = false) (input : I)
    (granted : JobMemory) (first : Int) :
    ∃ stage', Tracks (s.scan w (layersFrom first)) stage' ∧
      s.Moves stage (.work w input granted) (s.scan w (layersFrom first)) stage' := by
  rcases tracks.scan free (layersFrom_valid first) with ⟨none, kept⟩ | ⟨j, layer, pq, popped, queued, taken⟩
  · refine ⟨stage, kept, ?_⟩
    rw [none]
    exact .look w input granted idle free here on
  · refine ⟨_, taken, ?_⟩
    rw [popped]
    exact .pop w input granted idle free here on j layer pq queued

theorem running (tracks : Tracks s stage) (idle : s.calls (.inr w) = .outside)
    {pc : cmds.Local} (here : s.worker w = .running j layer pc) (input : I) (granted : JobMemory) :
    ∃ stage', Tracks (s.work w input granted) stage' ∧
      s.Moves stage (.work w input granted) (s.work w input granted) stage' := by
  have busy : stage j = .busy w true := tracks.on_duty (by rw [here]; rfl)
  have touched := tracks.touch (j := j) (by rw [busy]; nofun)
  have same {place : WorkerPlace cmds.Local} (duty : place.duty = some (j, true)) :
      place.duty = ((s.touch j).worker w).duty := by
    rw [duty, show (s.touch j).worker w = _ from here]
    rfl
  simp only [Pool.work, here]
  cases next : cmds.next pc (s.touch j).memory input with
  | on pc' memory =>
    exact ⟨stage, (touched.memory memory).rest (same rfl), .run w input granted idle j layer pc pc' memory here next⟩
  | done memory =>
    exact ⟨stage, (touched.memory memory).rest (same rfl), .leave w input granted idle j layer pc memory here next⟩
  | submit line pc' =>
    have going : Tracks ((s.touch j).setWorker w (.running j layer pc')) stage := touched.rest (same rfl)
    cases given : granted.node with
    | false =>
      dsimp only
      rw [Pool.submit_denied given]
      exact ⟨stage, going, .fail w input granted idle j layer pc pc' line here next given⟩
    | true =>
      exact ⟨_, going.create idle given line 0, .nest w input granted idle j layer pc pc' line here next given⟩

theorem popped (tracks : Tracks s stage) (idle : s.calls (.inr w) = .outside)
    (here : s.worker w = .popped j layer) (input : I) (granted : JobMemory) :
    ∃ stage', Tracks (s.work w input granted) stage' ∧
      s.Moves stage (.work w input granted) (s.work w input granted) stage' := by
  have duty : (s.worker w).duty = some (j, false) := by rw [here]; rfl
  have same : s.work w input granted = ((s.note (.reached .started j)).touch j).setWorker w (s.entry j layer) := by
    simp only [Pool.work, here, Pool.entry]
    change (match (s.jobs j).bind Job.commandStr with | some line => _ | none => _) = _
    split <;> rfl
  rw [same]
  exact ⟨_, tracks.start_job duty (s.entry_duty j layer), .start w input granted idle j layer here⟩

theorem work (tracks : Tracks s stage) (idle : s.calls (.inr w) = .outside) (input : I) (granted : JobMemory) :
    ∃ stage', Tracks (s.work w input granted) stage' ∧
      s.Moves stage (.work w input granted) (s.work w input granted) stage' := by
  cases here : s.worker w with
  | loop =>
    have free : (s.worker w).duty = none := by rw [here]; rfl
    simp only [Pool.work, here]
    split
    · next waits =>
        simp only [Bool.and_eq_true, Bool.not_eq_true'] at waits
        exact ⟨stage, tracks, .rest w input granted fun _ _ => waits.2⟩
    · split
      · next off => exact ⟨stage, tracks.rest (by rw [free]; rfl), .exit w input granted idle here off⟩
      · next on => exact tracks.scanned idle free (by rw [here]; nofun) (fun _ => by simpa using on) input granted 0
  | popped j layer => exact tracks.popped idle here input granted
  | running j layer pc => exact tracks.running idle here input granted
  | completing j layer =>
    have duty : (s.worker w).duty = some (j, true) := by rw [here]; rfl
    simp only [Pool.work, here]
    exact ⟨_, tracks.complete duty rfl, .complete w input granted idle j layer here⟩
  | scanning layer =>
    simp only [Pool.work, here]
    exact tracks.scanned idle (by rw [here]; rfl) (by rw [here]; nofun) (by rw [here]; nofun) input granted
      (layer + 1)
  | exited =>
    simp only [Pool.work, here]
    exact ⟨stage, tracks, .rest w input granted fun _ looping => by rw [here] at looping; cases looping⟩

theorem step (tracks : Tracks s stage) (action : PoolAction S W L I) :
    ∃ stage', Tracks (s.step action) stage' ∧ s.Moves stage action (s.step action) stage' := by
  cases action with
  | submit t granted line priority =>
    rw [Pool.step]
    split
    · next idle =>
        cases given : granted.node with
        | true => exact ⟨_, tracks.create idle given line priority, .create t granted line priority idle given⟩
        | false =>
          rw [Pool.submit_denied given]
          exact ⟨stage, tracks, .decline t granted line priority⟩
    · exact ⟨stage, tracks, .decline t granted line priority⟩
  | proceed t => exact tracks.proceed t
  | work w input granted =>
    rw [Pool.step]
    split
    · next idle => exact tracks.work idle input granted
    · next busy => exact ⟨stage, tracks, .rest w input granted fun idle => absurd idle busy⟩
  | shutDown => exact ⟨stage, tracks.shutDown, .shutDown⟩

theorem run (tracks : Tracks s stage) (actions : List (PoolAction S W L I)) :
    ∃ stage', Tracks (s.run actions) stage' := by
  induction actions generalizing s stage with
  | nil => exact ⟨stage, tracks⟩
  | cons action rest ih =>
    obtain ⟨stage', next, -⟩ := tracks.step action
    exact ih next

end Tracks

namespace Orderly
variable {log earlier later : List PoolEvent} {job : Nat}

theorem allowed_later (orderly : Orderly log) {event next : PoolEvent} (split : log = earlier ++ event :: later)
    (member : next ∈ later) : ∃ middle, next.Allowed (earlier ++ event :: middle) := by
  obtain ⟨middle, rest, rfl⟩ := append_of_mem member
  refine ⟨middle, orderly _ next rest ?_⟩
  rw [split, append_assoc, cons_append]

theorem fresh (orderly : Orderly log) {milestone : Milestone}
    (split : log = earlier ++ .reached milestone job :: later) : .reached milestone job ∉ earlier := by
  have allowed := orderly _ _ _ split
  cases milestone with
  | accepted => exact allowed
  | started | completed | freed => exact allowed.2

theorem once (orderly : Orderly log) {milestone : Milestone}
    (split : log = earlier ++ .reached milestone job :: later) : .reached milestone job ∉ later := by
  intro again
  obtain ⟨middle, rest, rfl⟩ := append_of_mem again
  have split' : log = (earlier ++ .reached milestone job :: middle) ++ .reached milestone job :: rest := by
    rw [split, append_assoc, cons_append]
  exact orderly.fresh split' (mem_append_right _ mem_cons_self)

theorem count_le_one (orderly : Orderly log) (milestone : Milestone) (job : Nat) :
    log.count (.reached milestone job) ≤ 1 := by
  by_cases member : .reached milestone job ∈ log
  · obtain ⟨earlier, later, split⟩ := append_of_mem member
    rw [split, count_append, count_cons_self, count_eq_zero_of_not_mem (orderly.fresh split),
      count_eq_zero_of_not_mem (orderly.once split)]
  · rw [count_eq_zero_of_not_mem member]
    exact Nat.zero_le 1

theorem untouched (orderly : Orderly log) (split : log = earlier ++ .reached .freed job :: later) :
    .touched job ∉ later := by
  intro member
  obtain ⟨middle, allowed⟩ := orderly.allowed_later split member
  exact allowed (mem_append_right _ mem_cons_self)

end Orderly

/-- A job is started at most once, waited for until it is completed, and not touched once it is freed. -/
theorem pool_safe [DecidableEq S] [DecidableEq W] (cmds : Commands L M I) (raw : PriorityQueue Unit Nat)
    (memory : M) (actions : List (PoolAction S W L I)) (job : Nat) (earlier later : List PoolEvent) :
    ((Pool.start cmds raw memory : Pool cmds S W).run actions).log.count (.reached .started job) ≤ 1 ∧
    (((Pool.start cmds raw memory : Pool cmds S W).run actions).log = earlier ++ .returned job :: later →
      .reached .completed job ∈ earlier) ∧
    (((Pool.start cmds raw memory : Pool cmds S W).run actions).log = earlier ++ .reached .freed job :: later →
      .touched job ∉ later ∧ .reached .freed job ∉ later) := by
  have started : Tracks (Pool.start cmds raw memory : Pool cmds S W) fun _ => .unborn := .start raw memory
  obtain ⟨stage, tracks⟩ := started.run actions
  have orderly := tracks.logged.orderly
  refine ⟨orderly.count_le_one .started job, fun split => ?_, fun split => ?_⟩
  · exact orderly _ _ _ split
  · exact ⟨orderly.untouched split, orderly.once split⟩

def quick : Commands Unit Unit Unit := ⟨Unit, fun _ => (), fun _ _ _ => .done ()⟩

example : ((Pool.start quick default () : Pool quick Unit Unit).run
    [.submit () ⟨true, true⟩ () 0, .proceed (.inl ()), .work () () ⟨true, true⟩, .work () () ⟨true, true⟩,
      .work () () ⟨true, true⟩, .work () () ⟨true, true⟩, .proceed (.inl ()), .proceed (.inl ())]).log =
    [.touched 0, .reached .accepted 0, .reached .started 0, .touched 0, .touched 0, .touched 0,
      .reached .completed 0, .touched 0, .touched 0, .reached .freed 0, .returned 0] := by
  decide

end Flinstone.Sched
