import Flinstone.Fs.Undo

/-! # Which operation an undo reverts -/

namespace Flinstone.Fs
open Flinstone.Lib List Option

def Op.undoable : Op → Bool
  | save .. | createFile _ | createDir _ | move .. => true
  | delete _ | undo => false

structure Tracked where
  service : Service
  stack : List (Nat × Command)
  effects : List Nat
  next : Nat

namespace Tracked

def start (s : Service) : Tracked where
  service := s
  stack := []
  effects := []
  next := 0

def performed (t : Tracked) (ran : Int × Service) : Tracked :=
  if ran.1 = 0 then
    { service := ran.2
      stack := if t.service.undoStack.length < fsUndoStackMax then
        ran.2.undoStack.head?.toList.map (t.next, ·) ++ t.stack else t.stack
      effects := t.next :: t.effects
      next := t.next + 1 }
  else { t with service := ran.2 }

def undone (t : Tracked) (ran : Int × Service) : Tracked :=
  match t.stack with
  | [] => { t with service := ran.2 }
  | (number, _) :: rest =>
    { t with
      service := ran.2
      stack := rest
      effects := if ran.1 = 0 then t.effects.erase number else t.effects }

def step (j : Jail) (t : Tracked) (op : Op) : Tracked :=
  if op.undoable then t.performed (op.run j t.service)
  else if op = .undo then t.undone (op.run j t.service)
  else { t with service := (op.run j t.service).2 }

def run (j : Jail) (t : Tracked) (ops : List Op) : Tracked := ops.foldl (step j) t

def UndoesLatest (t : Tracked) : Prop :=
  ∀ number ∈ t.effects.head?, ∃ cmd ∈ t.service.undoStack.head?, t.stack.head? = some (number, cmd)

end Tracked

def Restorable (j : Jail) (w : World) : Command → Prop
  | .createFile path | .createDir path => localPathOk j w path = 0 ∧ (w.stat path = some .dir ∧ (w.rmdir path).isSome ∨
        ∃ x, w.stat path = some x ∧ x ≠ .dir ∧ (w.unlink path).isSome)
  | .delete _ => False
  | .move path path2 => localPathOk j w path2 = 0 ∧ localPathOk j w path = 0 ∧ (w.rename path2 path).isSome
  | .write path _ oldContent => oldContent.isSome ∧ localPathOk j w path = 0 ∧ ∃ l, w.OpensAt path l

/-- An undoable operation finds room if it succeeds, and the command that an undo pops can be undone. -/
def Tame (j : Jail) (s : Service) (op : Op) : Prop :=
  (op.undoable → (op.run j s).1 = 0 → s.undoStack.length < fsUndoStackMax) ∧
    (op = .undo → ∀ cmd ∈ s.undoStack.head?, Restorable j s.world cmd)

variable {w : World} {j : Jail} {t : Tracked} {op : Op}

theorem result_isSome {after : Option World} (there : after.isSome) : (result w after).1 = 0 := by
  obtain ⟨w', rfl⟩ := isSome_iff_exists.mp there
  rfl

theorem Restorable.undo {cmd : Command} (restorable : Restorable j w cmd) : (cmd.undo j w).1 = 0 := by
  have deleted : ∀ path, (localPathOk j w path = 0 ∧ (w.stat path = some .dir ∧ (w.rmdir path).isSome ∨
        ∃ x, w.stat path = some x ∧ x ≠ .dir ∧ (w.unlink path).isSome)) →
      (localDelete j w path).1 = 0 := by
    rintro path ⟨ok, ⟨dir, removed⟩ | ⟨x, found, other, removed⟩⟩
    · rw [localDelete, if_neg (not_not.mpr ok), dir]
      exact result_isSome removed
    · rw [localDelete, if_neg (not_not.mpr ok), found]
      cases x with
      | dir => exact absurd rfl other
      | file bytes => exact result_isSome removed
      | link target => exact result_isSome removed
  cases cmd with
  | createFile path => exact deleted path restorable
  | createDir path => exact deleted path restorable
  | delete path => exact restorable.elim
  | move path path2 =>
    obtain ⟨ok, ok', renamed⟩ := restorable
    rw [Command.undo, localMove, if_neg (not_not.mpr ok), if_neg (not_not.mpr ok')]
    exact result_isSome renamed
  | write path content old =>
    obtain ⟨kept, ok, l, opens⟩ := restorable
    obtain ⟨text, rfl⟩ := isSome_iff_exists.mp kept
    obtain ⟨w', written, _⟩ := opens.writeFile text
    rw [Command.undo, localWriteText, if_neg (not_not.mpr ok), written]
    rfl

section Steps
variable {j : Jail} {s : Service}

theorem undoable_run {op : Op} (undoable : op.undoable) :
    op.run j s = (-1, s) ∨ ∃ cmd, op.run j s = s.perform j cmd := by
  cases op with
  | save path content =>
    rw [Op.run, Service.fmSaveText]
    split_ifs
    · exact Or.inl rfl
    · exact Or.inr ⟨_, rfl⟩
  | createFile path => exact Or.inr ⟨_, rfl⟩
  | createDir path => exact Or.inr ⟨_, rfl⟩
  | move src dst => exact Or.inr ⟨_, rfl⟩
  | delete path => cases undoable
  | undo => cases undoable

theorem undoable_pushed {op : Op} (undoable : op.undoable) (success : (op.run j s).1 = 0)
    (room : s.undoStack.length < fsUndoStackMax) :
    ∃ cmd, (op.run j s).2.undoStack = cmd :: s.undoStack := by
  rcases undoable_run undoable with denied | ⟨cmd, ran⟩
  · rw [denied] at success
    cases success
  · rw [ran, perform_result] at success
    rw [ran, Service.perform, if_pos success, Service.pushUndo, if_pos room]
    exact ⟨_, rfl⟩

theorem undoable_failed {op : Op} (undoable : op.undoable) (failed : (op.run j s).1 ≠ 0) :
    (op.run j s).2.undoStack = s.undoStack := by
  rcases undoable_run undoable with denied | ⟨cmd, ran⟩
  · rw [denied]
  · rw [ran, perform_result] at failed
    rw [ran, Service.perform, if_neg failed]

end Steps

structure InStep (t : Tracked) : Prop where
  commands : t.service.undoStack = t.stack.map Prod.snd
  numbers : t.stack.map Prod.fst = t.effects

theorem inStep_performed (inStep : InStep t) (tame : Tame j t.service op) (undoable : op.undoable) :
    InStep (t.performed (op.run j t.service)) := by
  unfold Tracked.performed
  split_ifs with success room
  · obtain ⟨cmd, pushed⟩ := undoable_pushed undoable success room
    exact ⟨by simp [pushed, inStep.commands], by simp [pushed, inStep.numbers]⟩
  · exact absurd (tame.1 undoable success) room
  · exact ⟨(undoable_failed undoable success).trans inStep.commands, inStep.numbers⟩

theorem inStep_undone (inStep : InStep t) (tame : Tame j t.service .undo) :
    InStep (t.undone (Op.run j t.service .undo)) := by
  have commands := inStep.commands
  have numbers := inStep.numbers
  unfold Tracked.undone
  cases stack : t.stack with
  | nil =>
    rw [stack] at commands numbers
    have nothing : Op.run j t.service .undo = (-1, t.service) := by
      rw [Op.run, Service.fmUndo, commands]
      rfl
    rw [nothing]
    exact ⟨commands, numbers⟩
  | cons top rest =>
    rw [stack] at commands numbers
    have popped : Op.run j t.service .undo = ((top.2.undo j t.service.world).1,
        { t.service with world := (top.2.undo j t.service.world).2, undoStack := rest.map Prod.snd }) := by
      rw [Op.run, Service.fmUndo, commands]
      rfl
    have success : (Op.run j t.service .undo).1 = 0 := by
      rw [popped]
      exact (tame.2 rfl top.2 (by rw [commands]; rfl)).undo
    dsimp only
    rw [if_pos success, popped]
    exact ⟨rfl, by rw [← numbers, map_cons, erase_cons_head]⟩

theorem inStep_step (inStep : InStep t) (tame : Tame j t.service op) : InStep (t.step j op) := by
  unfold Tracked.step
  split_ifs with undoable undo
  · exact inStep_performed inStep tame undoable
  · subst undo
    exact inStep_undone inStep tame
  · cases op with
    | delete path =>
      refine ⟨trans ?_ inStep.commands, inStep.numbers⟩
      rw [Op.run, Service.fmDelete]
      split_ifs <;> rfl
    | undo => exact absurd rfl undo
    | save path content => exact absurd rfl undoable
    | createFile path => exact absurd rfl undoable
    | createDir path => exact absurd rfl undoable
    | move src dst => exact absurd rfl undoable

theorem inStep_run (inStep : InStep t) (ops : List Op)
    (tame : ∀ before op after, ops = before ++ op :: after → Tame j (t.run j before).service op) :
    InStep (t.run j ops) := by
  induction ops using reverseRecOn with
  | nil => exact inStep
  | append_singleton ops op ih =>
    rw [Tracked.run, foldl_append, ← Tracked.run]
    refine inStep_step (ih fun before op' after split => ?_) (tame ops op [] rfl)
    exact tame before op' (after ++ [op]) (by rw [split, append_assoc, cons_append])

theorem InStep.undoesLatest (inStep : InStep t) : t.UndoesLatest := by
  intro number last
  rw [← inStep.numbers, head?_map] at last
  obtain ⟨⟨_, cmd⟩, top, rfl⟩ := map_eq_some_iff.mp last
  refine ⟨cmd, ?_, top⟩
  rw [inStep.commands, head?_map, top]
  rfl

end Flinstone.Fs
