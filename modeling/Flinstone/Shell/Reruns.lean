import Flinstone.Sched.PoolNesting
import Flinstone.Sched.PoolService
import Flinstone.Shell.Mediation

/-! # Commands on the workers -/

namespace Flinstone.Shell
open Flinstone.Lib Flinstone.Fs Flinstone.Sched

/-- Where a worker is in `execute_command_str`. -/
inductive LinePlace
  | begun (line : Text)
  /-- Behind `append_history`. -/
  | noted (line : Text)
  /-- In `interactive_shell`. -/
  | shell
  /-- Behind the `submit_single_command` of `rerun`. -/
  | ending

/-- What reaches a worker from outside; `line` is what is typed at an interactive shell. -/
structure WorkerInput extends Input where
  world : World

def opensShell (line : Text) : Bool :=
  match (words (line.take 511)).take 63 with
  | _ :: _ :: _ :: _ :: flag :: _ => flag = "-y".toList || flag = "-Y".toList
  | _ => false

/-- `execute_command_str` behind `append_history`. -/
def executeNoted (host : Host) (line : Text) (s : Session) (input : WorkerInput) : CommandStep LinePlace Text Session :=
  match parse line with
  | .rerun index =>
    match s.readHistoryLine index with
    | none => .done s
    | some cmd => .submit cmd .ending
  | .external => .done (s.setWorld input.world)
  | cmd =>
    let s := (cmd.run host input.toInput s).2.flush input.output
    match cmd with
    | .createdisk .. => if opensShell line then .on .shell s else .done s
    | _ => .done s

/-- The commands of the shell, each from one access to what the workers share to the next. -/
def shellCommands (host : Host) : Commands Text Session WorkerInput where
  Local := LinePlace
  start := .begun
  next
    | .begun line, s, _ =>
      if !s.running || line = [] then .done s else .on (.noted line) (s.appendHistory line)
    | .noted line, s, input => executeNoted host line s input
    | .shell, s, input =>
      if !s.running then .done s
      else if input.line = [] then .on .shell s
      else .submit input.line .shell
    | .ending, s, _ => .done s

def rereads (s : Session) (line : Text) : Option Text :=
  match parse line with
  | .rerun index => s.readHistoryLine index
  | _ => none

def rerunsWithin : Nat → Session → Text → Bool
  | 0, s, line => !s.running || line = [] || (rereads (s.appendHistory line) line).isNone
  | k + 1, s, line =>
    !s.running || line = [] || (rereads (s.appendHistory line) line).all (rerunsWithin k (s.appendHistory line))

def LinePlace.RerunsWithin (k : Nat) (s : Session) : LinePlace → Prop
  | begun line => rerunsWithin k s line = true
  | noted line => ∀ cmd, rereads s line = some cmd → ∃ k', k = k' + 1 ∧ rerunsWithin k' s cmd = true
  | shell | ending => True

def LinePlace.IsFree : LinePlace → Prop
  | begun _ | noted _ => False
  | shell | ending => True

variable {s : Session} {line : Text} {host : Host} {input : WorkerInput} {pc : LinePlace}

theorem rerunsWithin_noted {k : Nat} (within : rerunsWithin k s line = true)
    (runs : ¬ (!s.running || line = []) = true) :
    LinePlace.RerunsWithin k (s.appendHistory line) (.noted line) := by
  intro cmd found
  cases k with
  | zero =>
    rw [rerunsWithin, found, Bool.or_eq_true] at within
    exact absurd within (by simpa using runs)
  | succ k =>
    rw [rerunsWithin, found, Bool.or_eq_true] at within
    exact ⟨k, rfl, (within.resolve_left runs)⟩

theorem executeNoted_submit {cmd : Text}
    (next : executeNoted host line s input = .submit cmd pc) : rereads s line = some cmd ∧ pc = .ending := by
  unfold executeNoted at next
  unfold rereads
  split at next
  · next index parsed =>
      split at next
      · cases next
      · next found =>
          cases next
          exact ⟨by simpa [parsed] using found, rfl⟩
  · cases next
  · split at next
    · split at next <;> cases next
    · cases next

theorem executeNoted_on {s' : Session} (next : executeNoted host line s input = .on pc s') : pc = .shell := by
  unfold executeNoted at next
  split at next
  · split at next <;> cases next
  · cases next
  · split at next
    · split at next
      · cases next
        rfl
      · cases next
    · cases next

def rerunNesting (host : Host) : Nesting (shellCommands host) where
  bounds k s line := rerunsWithin k s line = true
  within := LinePlace.RerunsWithin
  free := LinePlace.IsFree
  start bounds := bounds
  on {k s pc input pc' s'} within next := by
    cases pc with
    | begun line =>
      simp only [shellCommands] at next
      split at next
      · cases next
      · next runs =>
          cases next
          exact rerunsWithin_noted within runs
    | noted line =>
      rw [executeNoted_on next]
      trivial
    | shell =>
      simp only [shellCommands] at next
      split at next
      · cases next
      · split at next
        · cases next
          trivial
        · cases next
    | ending => cases next
  submit {k s pc input line pc'} within free next := by
    cases pc with
    | begun line =>
      simp only [shellCommands] at next
      split at next <;> cases next
    | noted line => exact within _ (executeNoted_submit next).1
    | shell | ending => exact absurd trivial free
  freed {s pc input line pc'} next := by
    cases pc with
    | begun line =>
      simp only [shellCommands] at next
      split at next <;> cases next
    | noted line =>
      rw [(executeNoted_submit next).2]
      trivial
    | shell =>
      simp only [shellCommands] at next
      split at next
      · cases next
      · split at next
        · cases next
        · cases next
          trivial
    | ending => cases next
  free_within {pc} free k s := by
    cases pc with
    | begun line | noted line => exact free.elim
    | shell | ending => trivial

/-- If lines are handed in one after the other and `rerun` does not go deeper than three lines. -/
theorem pool_never_blocks {S : Type} [DecidableEq S] (host : Host) (raw : PriorityQueue Unit Nat)
    (session : Session) (actions : List (PoolAction S (Fin 4) Text WorkerInput))
    (sequential : ∀ k action, actions[k]? = some action →
      ((Pool.start (shellCommands host) raw session).run (actions.take k)).Sequential (rerunNesting host) action)
    (k : Nat) :
    ¬ ∀ w, ∃ j, ((Pool.start (shellCommands host) raw session).run (actions.take k)).calls (.inr w) = .waiting j := by
  have shorter : ∀ i action, (actions.take k)[i]? = some action →
      ((Pool.start (shellCommands host) raw session).run ((actions.take k).take i)).Sequential
        (rerunNesting host) action := by
    intro i action found
    rw [List.getElem?_take] at found
    split at found
    · next earlier =>
        rw [List.take_take, min_eq_left earlier.le]
        exact sequential i action found
    · cases found
  obtain ⟨stage, alone⟩ := (Alone.start raw session).run (Tracks.start raw session) shorter
  obtain ⟨w, idle⟩ := alone.worker_left
  intro blocked
  obtain ⟨j, waits⟩ := blocked w
  rw [idle] at waits
  cases waits

def nothingTyped : WorkerInput := { typed [] with world := jailWorld }

def handIn {S : Type} (t : S) : List (PoolAction S (Fin 4) Text WorkerInput) :=
  [.submit t ⟨true, true⟩ "rerun 1".toList 0, .proceed (.inl t)]

def rerunOn {S : Type} (w : Fin 4) : List (PoolAction S (Fin 4) Text WorkerInput) :=
  List.replicate 4 (.work w nothingTyped ⟨true, true⟩) ++ [.proceed (.inr w)]

def notYetFree : WorkerPlace LinePlace → Bool
  | .running _ _ .shell | .running _ _ .ending => false
  | _ => true

theorem sequential_work {S : Type} {s : Pool (shellCommands host) S (Fin 4)} {w : Fin 4}
    (early : notYetFree (s.worker w) = true) (input : WorkerInput) (granted : JobMemory) :
    s.Sequential (rerunNesting host) (.work w input granted) := by
  intro _ j layer pc _ _ here free
  rw [here] at early
  cases pc with
  | begun line | noted line => exact free.elim
  | shell | ending => cases early

theorem pool_never_blocks_help :
    ((Pool.start (shellCommands smallHost) default (jailedSession.appendHistory "help".toList)).run
      (handIn () ++ rerunOn 0)).calls (.inr 0) = .waiting 1 ∧
    ¬ ∀ w, ∃ j, ((Pool.start (shellCommands smallHost) default (jailedSession.appendHistory "help".toList)).run
      ((handIn () ++ rerunOn 0).take 7)).calls (.inr w) = .waiting j := by
  have bounded : rerunsWithin 3 (jailedSession.appendHistory "help".toList) "rerun 1".toList = true := by
    decide +kernel
  refine ⟨by decide +kernel, pool_never_blocks smallHost default _ _ (fun k action found => ?_) 7⟩
  match k, found with
  | 0, rfl => exact fun _ => ⟨fun _ => rfl, 3, by decide, bounded⟩
  | 1, rfl | 6, rfl => trivial
  | 2, rfl | 3, rfl | 4, rfl | 5, rfl => exact sequential_work (by decide +kernel) _ _

def oneLine : Pool (shellCommands smallHost) Unit (Fin 4) :=
  (Pool.start (shellCommands smallHost) default jailedSession).run (handIn () ++ (List.finRange 4).flatMap rerunOn)

def fourLines : Pool (shellCommands smallHost) (Fin 4) (Fin 4) :=
  (Pool.start (shellCommands smallHost) default jailedSession).run
    ((List.finRange 4).flatMap handIn ++ (List.finRange 4).flatMap rerunOn)

/-- `rerun 1` finds itself in the history: every worker waits for a line that is in the queue. -/
theorem pool_blocks_itself : (∀ w, oneLine.calls (.inr w) = .waiting (w + 1)) ∧
    (∀ j < 5, (oneLine.jobs j).any Job.done = false) ∧ oneLine.InQueue 4 ∧
    ∀ w, fourLines.calls (.inr w) = .waiting (w + 4) ∧ fourLines.InQueue (w + 4) := by
  unfold Pool.InQueue
  decide +kernel

end Flinstone.Shell
