import Flinstone.Sched.History

/-! # What a queue holds -/

namespace Flinstone.Sched
open Flinstone.Lib List Function

section
variable {F A κ : Type} {view : Option F → Option A → κ} {pq : PriorityQueue F A} {cells : Layer → List κ}

def Shows (view : Option F → Option A → κ) (pq : PriorityQueue F A) (cells : Layer → List κ) : Prop :=
  ∃ m, Represents pq m ∧ ∀ layer, (m.layers layer).map (fun e => view e.task.fn e.task.arg) = cells layer

theorem shows_init (view : Option F → Option A → κ) (pq : PriorityQueue F A) : Shows view (pqInit pq) fun _ => [] :=
  ⟨Mlq.empty.clear, represents_init pq Mlq.empty, fun _ => rfl⟩

theorem entries_length {m : Mlq F A}
    (holds : ∀ layer, (m.layers layer).map (fun e => view e.task.fn e.task.arg) = cells layer) :
    m.entries.length = ((finRange 4).flatMap cells).length := by
  have lengths (layer : Layer) : (m.layers layer).length = (cells layer).length := by
    simpa using congrArg length (holds layer)
  simp only [Mlq.entries, length_flatMap, lengths]

theorem pqPush_refused {priority : Int} (invalid : priorityValid priority = false) (fn : Option F)
    (arg : Option A) : pqPush pq priority fn arg = (-1, pq) := by
  simp [pqPush, invalid]

namespace Shows

theorem count (shown : Shows view pq cells) : pqCount pq = ((finRange 4).flatMap cells).length := by
  obtain ⟨m, rep, holds⟩ := shown
  rw [pqCount, rep.size, entries_length holds]

theorem isEmpty_iff (shown : Shows view pq cells) : pqIsEmpty pq = true ↔ (finRange 4).flatMap cells = [] := by
  obtain ⟨m, rep, holds⟩ := shown
  rw [pqIsEmpty, beq_iff_eq, rep.size, entries_length holds]
  simp only [Nat.cast_eq_zero, length_eq_zero_iff]

theorem push (shown : Shows view pq cells) (room : ((finRange 4).flatMap cells).length < 128)
    {priority : Int} (valid : priorityValid priority = true) (fn : F) (arg : Option A) :
    (pqPush pq priority (some fn) arg).1 ≠ -1 ∧
    Shows view (pqPush pq priority (some fn) arg).2
      (update cells (layerOf priority) (cells (layerOf priority) ++ [view (some fn) arg])) := by
  obtain ⟨m, rep, holds⟩ := shown
  have total := rep.room
  rw [entries_length holds] at total
  have free : pq.freeTop ≠ 0 := by omega
  obtain ⟨slot, handle, -, placed⟩ := rep.place valid free fn arg
  refine ⟨?_, _, placed, fun layer => ?_⟩
  · rw [handle]
    exact pqMakeHandle_ne_error pq.nextGen slot
  by_cases same : layer = layerOf priority
  · subst same
    simp [Mlq.push, holds]
  · simp [Mlq.push, update_of_ne same, holds]

theorem setQuantum (shown : Shows view pq cells) (h : PqHandle) (quantum : BitVec 32) :
    Shows view (pqSetQuantum pq h quantum) cells := by
  obtain ⟨m, rep, holds⟩ := shown
  refine ⟨m.setQuantum h quantum, (pqSetQuantum_spec rep h quantum).1, fun layer => ?_⟩
  rw [← holds layer, Mlq.setQuantum, map_map]
  refine map_congr_left fun e _ => ?_
  simp only [comp_apply]
  split <;> rfl

theorem pop_nil (shown : Shows view pq cells) {layer : Int} (empty : cells (layerOf layer) = []) :
    pqPopFromLayer pq layer true = (none, pq) := by
  obtain ⟨m, rep, holds⟩ := shown
  obtain ⟨result, -, kept⟩ := pqPopFromLayer_spec rep layer true
  have none : m.layers (layerOf layer) = [] := by
    have same := holds (layerOf layer)
    rw [empty] at same
    exact map_eq_nil_iff.mp same
  have failed : (pqPopFromLayer pq layer true).1 = .none := by
    rw [result, none]
    split <;> rfl
  exact Prod.ext failed (kept failed)

theorem pop_cons (shown : Shows view pq cells) {layer : Int} (valid : priorityValid layer = true)
    {cell : κ} {rest : List κ} (first : cells (layerOf layer) = cell :: rest) :
    ∃ task pq', pqPopFromLayer pq layer true = (some task, pq') ∧ view task.fn task.arg = cell ∧
      Shows view pq' (update cells (layerOf layer) rest) := by
  obtain ⟨m, rep, holds⟩ := shown
  obtain ⟨result, popped, -⟩ := pqPopFromLayer_spec rep layer true
  have same := holds (layerOf layer)
  rw [first] at same
  obtain ⟨e, tail, split, head, others⟩ := map_eq_cons_iff.mp same
  have found : (pqPopFromLayer pq layer true).1 = some e.task := by
    rw [result, split, valid]
    rfl
  rw [found] at popped
  refine ⟨e.task, _, Prod.ext found rfl, head, _, popped, fun other => ?_⟩
  by_cases here : other = layerOf layer
  · subst here
    simpa [Mlq.popFrom, split] using others
  · simp [Mlq.popFrom, split, update_of_ne here, holds]

end Shows

end

variable {F A : Type} {pq : PriorityQueue F A} {tasks : Layer → List F}

def Queued (pq : PriorityQueue F A) (tasks : Layer → List F) : Prop :=
  Shows (fun fn _ => fn) pq fun layer => (tasks layer).map some

theorem queued_init (pq : PriorityQueue F A) : Queued (pqInit pq) fun _ => [] := shows_init (fun fn _ => fn) pq

theorem queued_update_iff {layer : Layer} {queue : List F} : Queued pq (update tasks layer queue) ↔
    Shows (fun fn _ => fn) pq (update (fun layer => (tasks layer).map some) layer (queue.map some)) := by
  rw [Queued, funext fun other => apply_update (fun _ => map some) tasks layer queue other]

namespace Queued

theorem push (queued : Queued pq tasks) (room : ((finRange 4).flatMap tasks).length < 128)
    {priority : Int} (valid : priorityValid priority = true) (fn : F) (arg : Option A) :
    (pqPush pq priority (some fn) arg).1 ≠ -1 ∧ Queued (pqPush pq priority (some fn) arg).2
      (update tasks (layerOf priority) (tasks (layerOf priority) ++ [fn])) := by
  rw [queued_update_iff, map_append]
  exact Shows.push queued (by simpa using room) valid fn arg

theorem pop_cons (queued : Queued pq tasks) {layer : Int} (valid : priorityValid layer = true)
    {fn : F} {rest : List F} (cells : tasks (layerOf layer) = fn :: rest) :
    ∃ task pq', pqPopFromLayer pq layer true = (some task, pq') ∧ task.fn = some fn ∧
      Queued pq' (update tasks (layerOf layer) rest) := by
  obtain ⟨task, pq', popped, found, shown⟩ := Shows.pop_cons queued valid (congrArg (map some) cells)
  exact ⟨task, pq', popped, found, queued_update_iff.mpr shown⟩

end Queued

end Flinstone.Sched
