import Flinstone.Sched.PoolSafety

/-! # Submitters that nobody serves -/

namespace Flinstone.Sched
open List

variable {L M I : Type} {cmds : Commands L M I} {S W : Type}

def popAll (pq : PriorityQueue Unit Nat) (layer : Int) : Nat → List (Option Nat)
  | 0 => []
  | n + 1 =>
    match pqPopFromLayer pq layer true with
    | (some task, pq) => task.arg :: popAll pq layer n
    | (none, _) => []

namespace Pool

def InQueue (s : Pool cmds S W) (j : Nat) : Prop := ∃ layer ∈ layersFrom 0, some j ∈ popAll s.pq layer 128

def Attended (s : Pool cmds S W) (j : Nat) : Prop :=
  (s.InQueue j ∧ ∃ w, s.worker w ≠ .exited) ∨ (∃ w started, (s.worker w).duty = some (j, started)) ∨
    (s.jobs j).any Job.done = true

def NoneAbandoned (s : Pool cmds S W) : Prop := ∀ t j, s.calls t = .waiting j → s.Attended j

/-- The queue takes the job while there is a worker, and the last worker leaves no jobs. -/
def Serves (s : Pool cmds S W) : PoolAction S W L I → Prop
  | .proceed t =>
    ∀ j priority, s.calls t = .created j priority → s.Takes priority ∧ ∃ w, s.worker w ≠ .exited
  | .work w _ _ =>
    s.calls (.inr w) = .outside → s.worker w = .loop → s.shuttingDown = true →
      pqIsEmpty s.pq = true ∨ ∃ w' ≠ w, s.worker w' ≠ .exited
  | .submit .. | .shutDown => True

end Pool

theorem layer_listed : ∀ layer : Layer, (layer.val : Int) ∈ layersFrom 0 ∧ layerOf layer.val = layer := by
  decide

namespace Line
variable {pq : PriorityQueue Unit Nat} {cells : Layer → List Nat} {stage : Nat → Stage W}

theorem popAll (line : Line pq cells stage) {layer : Int} (valid : priorityValid layer = true) (n : Nat) :
    popAll pq layer n = ((cells (layerOf layer)).take n).map some := by
  induction n generalizing pq cells stage with
  | zero => rfl
  | succ n ih =>
    unfold popAll
    cases first : cells (layerOf layer) with
    | nil =>
      rw [line.shown.pop_nil (by rw [first]; rfl)]
      rfl
    | cons j rest =>
      have other : (Stage.freed : Stage W) ≠ .queued := nofun
      obtain ⟨task, pq', popped, -, arg, -, next⟩ := line.pop valid first other
      rw [popped]
      simp only [arg, ih next, Function.update_self, take_succ_cons, map_cons]

theorem length_le (line : Line pq cells stage) (layer : Layer) : (cells layer).length ≤ 128 := by
  obtain ⟨m, rep, holds⟩ := line.shown
  have room := rep.room
  rw [entries_length holds, length_flatMap] at room
  simp only [length_map, ← length_flatMap] at room
  have part := (flatMap_perm cells layer).length_eq
  rw [length_append] at part
  omega

theorem inQueue_iff (line : Line pq cells stage) (j : Nat) :
    (∃ layer ∈ layersFrom 0, some j ∈ Sched.popAll pq layer 128) ↔ stage j = .queued := by
  rw [← line.members, mem_flatMap]
  constructor
  · rintro ⟨layer, listed, member⟩
    rw [line.popAll (layersFrom_valid 0 layer listed), take_of_length_le (line.length_le _)] at member
    obtain ⟨k, member, same⟩ := mem_map.mp member
    cases same
    exact ⟨layerOf layer, mem_finRange _, member⟩
  · rintro ⟨layer, -, member⟩
    obtain ⟨listed, same⟩ := layer_listed layer
    refine ⟨layer.val, listed, ?_⟩
    rw [line.popAll (layersFrom_valid 0 _ listed), same, take_of_length_le (line.length_le _)]
    exact mem_map_of_mem member

end Line

def Served (s : Pool cmds S W) (stage : Nat → Stage W) : Prop :=
  (∀ j, stage j ≠ .lost) ∧ ((∃ j, stage j = .queued) → ∃ w, s.worker w ≠ .exited)

namespace Tracks
variable {s : Pool cmds S W} {stage : Nat → Stage W} {j : Nat}

theorem waiter (tracks : Tracks s stage) (awaited : (stage j).awaited = true) (pending : stage j ≠ .done) :
    ∃ t, s.calls t = .waiting j := by
  obtain ⟨t, held⟩ := tracks.callers.owned j (Stage.live_of_awaited awaited)
  refine ⟨t, ?_⟩
  have fits := tracks.callers.fits t
  cases call : s.calls t with
  | outside =>
    rw [call] at held
    cases held
  | waiting k =>
    rw [call] at held
    cases held
    rfl
  | created k priority =>
    rw [call] at held fits
    cases held
    rw [show stage j = .created from fits] at awaited
    cases awaited
  | finished k =>
    rw [call] at held fits
    cases held
    exact absurd fits pending

theorem attended_iff (tracks : Tracks s stage) (live : (stage j).live = true) :
    s.Attended j ↔ (stage j = .queued ∧ ∃ w, s.worker w ≠ .exited) ∨ (∃ w started, stage j = .busy w started) ∨
      stage j = .done := by
  obtain ⟨cells, line⟩ := tracks.line
  rw [Pool.Attended, Pool.InQueue, line.inQueue_iff, tracks.done_iff live]
  simp only [← tracks.duties _ j]

theorem noneAbandoned_iff (tracks : Tracks s stage) : s.NoneAbandoned ↔ Served s stage := by
  constructor
  · intro none
    have attended {j : Nat} (awaited : (stage j).awaited = true) (pending : stage j ≠ .done) : s.Attended j := by
      obtain ⟨t, waits⟩ := tracks.waiter awaited pending
      exact none t j waits
    refine ⟨fun j lost => ?_, fun ⟨j, queued⟩ => ?_⟩
    · have attended := attended (by rw [lost]; rfl) (by rw [lost]; nofun)
      rw [tracks.attended_iff (by rw [lost]; rfl), lost] at attended
      simp at attended
    · have attended := attended (by rw [queued]; rfl) (by rw [queued]; nofun)
      rw [tracks.attended_iff (by rw [queued]; rfl), queued] at attended
      simpa using attended
  · intro ⟨kept, served⟩ t j waits
    have awaited : (stage j).awaited = true := tracks.call_fits waits
    rw [tracks.attended_iff (Stage.live_of_awaited awaited)]
    cases at' : stage j with
    | unborn | created | freed => simp [at', Stage.awaited] at awaited
    | lost => exact absurd at' (kept j)
    | queued => exact .inl ⟨rfl, served ⟨j, at'⟩⟩
    | busy w started => exact .inr (.inl ⟨w, started, rfl⟩)
    | done => exact .inr (.inr rfl)

end Tracks

namespace Served
variable {s s' : Pool cmds S W} {stage : Nat → Stage W} {j : Nat} {st : Stage W}

theorem stay (served : Served s stage) (workers : (∃ w, s.worker w ≠ .exited) → ∃ w, s'.worker w ≠ .exited) :
    Served s' stage :=
  ⟨served.1, fun queued => workers (served.2 queued)⟩

theorem move (served : Served s stage) (workers : (∃ w, s.worker w ≠ .exited) → ∃ w, s'.worker w ≠ .exited)
    (kept : st ≠ .lost) (queued : st ≠ .queued) : Served s' (Function.update stage j st) := by
  refine ⟨fun k => ?_, fun ⟨k, waits⟩ => workers (served.2 ⟨k, ?_⟩)⟩
  · rw [Function.update_apply]
    split
    · exact kept
    · exact served.1 k
  · rw [Function.update_apply] at waits
    split at waits
    · exact absurd waits queued
    · exact waits

theorem at_work [DecidableEq W] {w : W} {place : WorkerPlace cmds.Local} (stays : place ≠ .exited) :
    ∃ w', (s.setWorker w place).worker w' ≠ .exited :=
  ⟨w, by simpa [Pool.setWorker] using stays⟩

end Served

section
variable {s s' : Pool cmds S W} {stage stage' : Nat → Stage W}

theorem Pool.serves_working {w : W} (on : s.worker w = .loop → s.shuttingDown = false) (input : I)
    (granted : JobMemory) : s.Serves (.work w input granted) := by
  intro _ here off
  rw [on here] at off
  cases off

theorem Pool.serves_proceeding {t : S ⊕ W} (other : ∀ j priority, s.calls t ≠ .created j priority) :
    s.Serves (.proceed t : PoolAction S W L I) :=
  fun j priority created => absurd created (other j priority)

variable [DecidableEq S] [DecidableEq W]

theorem served_step (tracks : Tracks s stage) (served : Served s stage) {action : PoolAction S W L I}
    (moves : s.Moves stage action s' stage') : Served s' stage' ↔ s.Serves action := by
  cases moves with
  | decline t granted line priority => exact iff_of_true served trivial
  | outside t here => exact iff_of_true served (Pool.serves_proceeding (by rw [here]; nofun))
  | rest w input granted on =>
    refine iff_of_true served fun idle here off => ?_
    rw [on idle here] at off
    cases off
  | create t granted line priority idle given =>
    rw [Pool.submit_given given]
    exact iff_of_true (served.move id nofun nofun) trivial
  | queue t j priority here =>
    have workers : ((s.queueJobPriority j priority).setCall t (.waiting j)).worker = s.worker :=
      (Pool.Like.queueJobPriority s j priority).worker
    constructor
    · intro after j' priority' created
      rw [here] at created
      cases created
      by_cases takes : s.Takes priority
      · rw [if_pos takes, Served, workers] at after
        exact ⟨takes, after.2 ⟨j, Function.update_self ..⟩⟩
      · rw [if_neg takes] at after
        exact absurd (Function.update_self ..) (after.1 j)
    · intro serves
      obtain ⟨takes, worker⟩ := serves j priority here
      rw [if_pos takes, Served, workers]
      refine ⟨fun k => ?_, fun _ => worker⟩
      rw [Function.update_apply]
      split
      · nofun
      · exact served.1 k
  | wait t j here pending =>
    exact iff_of_true (served.stay id) (Pool.serves_proceeding (by rw [here]; nofun))
  | finish t j here done =>
    exact iff_of_true (served.stay id) (Pool.serves_proceeding (by rw [here]; nofun))
  | free t j here =>
    exact iff_of_true (served.move id nofun nofun) (Pool.serves_proceeding (by rw [here]; nofun))
  | look w input granted idle free here on =>
    exact iff_of_true (served.stay fun _ => Served.at_work nofun) (Pool.serves_working on input granted)
  | pop w input granted idle free here on j layer pq queued =>
    exact iff_of_true (served.move (fun _ => Served.at_work nofun) nofun nofun) (Pool.serves_working on input granted)
  | exit w input granted idle here off =>
    obtain ⟨cells, line⟩ := tracks.line
    have others : (∃ w', (s.setWorker w .exited).worker w' ≠ .exited) ↔ ∃ w' ≠ w, s.worker w' ≠ .exited := by
      refine exists_congr fun w' => ?_
      by_cases same : w' = w <;> simp [Pool.setWorker, same]
    have serves : s.Serves (.work w input granted) ↔ pqIsEmpty s.pq = true ∨ ∃ w' ≠ w, s.worker w' ≠ .exited :=
      ⟨fun serves => serves idle here off, fun left _ _ _ => left⟩
    rw [serves, line.isEmpty_iff, Served, others]
    constructor
    · intro after
      by_cases queued : ∃ j, stage j = .queued
      · exact .inr (after.2 queued)
      · exact .inl (not_exists.mp queued)
    · rintro (empty | left)
      · exact ⟨served.1, fun ⟨j, queued⟩ => absurd queued (empty j)⟩
      · exact ⟨served.1, fun _ => left⟩
  | start w input granted idle j layer here =>
    refine iff_of_true (served.move (fun _ => Served.at_work fun exited => ?_) nofun nofun)
      (Pool.serves_working (by rw [here]; nofun) input granted)
    have duty := s.entry_duty j layer
    rw [exited] at duty
    cases duty
  | run w input granted idle j layer pc pc' memory here next =>
    exact iff_of_true (served.stay fun _ => Served.at_work nofun)
      (Pool.serves_working (by rw [here]; nofun) input granted)
  | nest w input granted idle j layer pc pc' line here next given =>
    rw [Pool.submit_given given]
    exact iff_of_true (served.move (fun _ => Served.at_work nofun) nofun nofun)
      (Pool.serves_working (by rw [here]; nofun) input granted)
  | fail w input granted idle j layer pc pc' line here next denied =>
    exact iff_of_true (served.stay fun _ => Served.at_work nofun)
      (Pool.serves_working (by rw [here]; nofun) input granted)
  | leave w input granted idle j layer pc memory here next =>
    exact iff_of_true (served.stay fun _ => Served.at_work nofun)
      (Pool.serves_working (by rw [here]; nofun) input granted)
  | complete w input granted idle j layer here =>
    exact iff_of_true (served.move (fun _ => Served.at_work nofun) nofun nofun)
      (Pool.serves_working (by rw [here]; nofun) input granted)
  | shutDown => exact iff_of_true (served.stay id) trivial

theorem noneAbandoned_step (tracks : Tracks s stage) (none : s.NoneAbandoned) (action : PoolAction S W L I) :
    (s.step action).NoneAbandoned ↔ s.Serves action := by
  obtain ⟨stage', next, moves⟩ := tracks.step action
  rw [next.noneAbandoned_iff, served_step tracks (tracks.noneAbandoned_iff.mp none) moves]

theorem noneAbandoned_run (tracks : Tracks s stage) (none : s.NoneAbandoned) (actions : List (PoolAction S W L I)) :
    (∀ k, (s.run (actions.take k)).NoneAbandoned) ↔
      ∀ k action, actions[k]? = some action → (s.run (actions.take k)).Serves action := by
  induction actions generalizing s stage with
  | nil =>
    refine iff_of_true (fun k => ?_) nofun
    rwa [take_nil]
  | cons action rest ih =>
    obtain ⟨stage', next, -⟩ := tracks.step action
    have step := noneAbandoned_step tracks none action
    constructor
    · intro always k
      have first : (s.step action).NoneAbandoned := always 1
      cases k with
      | zero =>
        rintro _ ⟨⟩
        exact step.mp first
      | succ k => exact (ih next first).mp (fun k => always (k + 1)) k
    · intro each k
      cases k with
      | zero => exact none
      | succ k =>
        have first := step.mpr (each 0 action rfl)
        exact (ih next first).mpr (fun k => each (k + 1)) k

theorem no_submitter_abandoned (cmds : Commands L M I) (raw : PriorityQueue Unit Nat) (memory : M)
    (actions : List (PoolAction S W L I)) :
    (∀ k, ((Pool.start cmds raw memory : Pool cmds S W).run (actions.take k)).NoneAbandoned) ↔
      ∀ k action, actions[k]? = some action →
        ((Pool.start cmds raw memory : Pool cmds S W).run (actions.take k)).Serves action :=
  noneAbandoned_run (Tracks.start raw memory) (fun _ _ => nofun) actions

end

def leaving : List (PoolAction Unit (Fin 4) Unit Unit) :=
  .submit () ⟨true, true⟩ () 0 :: .proceed (.inl ()) :: .shutDown ::
    (List.finRange 4).map fun w => .work w () ⟨true, true⟩

theorem shutdown_abandons : ¬ ((Pool.start quick default () : Pool quick Unit (Fin 4)).run leaving).NoneAbandoned := by
  intro none
  rcases none (.inl ()) 0 rfl with ⟨-, w, left⟩ | ⟨w, started, duty⟩ | done
  · fin_cases w <;> exact left rfl
  · fin_cases w <;> cases duty
  · cases done

end Flinstone.Sched
