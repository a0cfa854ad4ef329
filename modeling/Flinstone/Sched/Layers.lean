import Flinstone.Sched.PriorityQueue
import Mathlib.Data.List.FinRange
import Mathlib.Data.List.Perm.Basic

/-! # Four first-in first-out lists -/

namespace Flinstone.Sched
open Flinstone.Lib Function

variable {F A : Type}

structure Entry (F A : Type) where
  id : Nat
  handle : PqHandle
  slot : Slot
  task : PqTask F A

/-- `placed` counts the pushes since `pq_init`, `serial` all pushes; `retired` are handles of tasks that are gone. -/
structure Mlq (F A : Type) where
  layers : Layer → List (Entry F A)
  placed : Nat
  serial : Nat
  retired : List PqHandle

namespace Mlq

def empty : Mlq F A := ⟨fun _ => [], 0, 0, []⟩

def entries (m : Mlq F A) : List (Entry F A) := (List.finRange 4).flatMap m.layers

def slots (m : Mlq F A) (layer : Layer) : List Slot := (m.layers layer).map Entry.slot

def addresses (h : PqHandle) (e : Entry F A) : Bool :=
  !h.msb && pqHandleSlot h == e.slot.val && pqHandleGen h == pqHandleGen e.handle

def lookup (m : Mlq F A) (h : PqHandle) : Option (Entry F A) := m.entries.find? (addresses h)

def firstNonempty (m : Mlq F A) : Option Layer := (List.finRange 4).find? fun layer => !(m.layers layer).isEmpty

def clear (m : Mlq F A) : Mlq F A := { m with layers := fun _ => [], placed := 0 }

def push (m : Mlq F A) (layer : Layer) (handle : PqHandle) (fn : F) (arg : Option A) : Mlq F A :=
  let entry := ⟨m.serial, handle, slotOf handle, ⟨some fn, arg, layer, BitVec.ofNat 32 m.placed, 0, 0⟩⟩
  { m with
    layers := update m.layers layer (m.layers layer ++ [entry])
    placed := m.placed + 1
    serial := m.serial + 1 }

def popFrom (m : Mlq F A) (layer : Layer) : Mlq F A :=
  match m.layers layer with
  | [] => m
  | e :: rest =>
    { m with
      layers := update m.layers layer rest
      retired := e.handle :: m.retired }

def without (m : Mlq F A) (h : PqHandle) (layer : Layer) : Layer → List (Entry F A) :=
  update m.layers layer ((m.layers layer).eraseP (addresses h))

def move (m : Mlq F A) (h : PqHandle) (layer : Layer) : Mlq F A :=
  match m.lookup h with
  | none => m
  | some e =>
    if e.task.priority = layer then m
    else
      let moved := { e with task := { e.task with priority := layer } }
      { m with
        layers := update (m.without h e.task.priority) layer
          (m.layers layer ++ [moved]) }

def remove (m : Mlq F A) (h : PqHandle) : Mlq F A :=
  match m.lookup h with
  | none => m
  | some e =>
    { m with
      layers := m.without h e.task.priority
      retired := e.handle :: m.retired }

def setQuantum (m : Mlq F A) (h : PqHandle) (quantum : BitVec 32) : Mlq F A :=
  { m with
    layers := fun layer => (m.layers layer).map fun e =>
      if addresses h e then { e with task := { e.task with quantum } } else e }

def apply (m : Mlq F A) (call : PqCall F A) (reply : PqReply F A) : Mlq F A :=
  match call with
  | .init => m.clear
  | .setQuantum h quantum => m.setQuantum h quantum
  | .push priority fn arg =>
    if reply.ret = -1 then m else m.push (layerOf priority) reply.ret fn arg
  | .pop _ => if reply.ret = -1 then m else m.firstNonempty.elim m m.popFrom
  | .popFromLayer layer _ => if reply.ret = -1 then m else m.popFrom (layerOf layer)
  | .update h newPriority => if reply.ret = -1 then m else m.move h (layerOf newPriority)
  | .remove h => if reply.ret = -1 then m else m.remove h

def Allows (m : Mlq F A) (reply : PqReply F A) : PqCall F A → Prop
  | .init => reply = ⟨0, none⟩
  | .push priority _ _ =>
    reply.out = none ∧
    (reply.ret = -1 ↔ priorityValid priority = false ∨ m.entries.length = 128) ∧
    (reply.ret ≠ -1 → ∀ e ∈ m.entries, e.slot ≠ slotOf reply.ret)
  | .pop out =>
    reply = popReply (if out then (m.firstNonempty.bind fun l => (m.layers l).head?).map Entry.task else none)
  | .popFromLayer layer out =>
    reply = popReply (if priorityValid layer && out then (m.layers (layerOf layer)).head?.map Entry.task
        else none)
  | .update h newPriority =>
    reply = ⟨if priorityValid newPriority && (m.lookup h).isSome then 0 else -1, none⟩
  | .remove h => reply = ⟨if (m.lookup h).isSome then 0 else -1, none⟩
  | .setQuantum _ _ => reply = ⟨0, none⟩

theorem firstNonempty_eq_none {m : Mlq F A} : m.firstNonempty = none ↔ ∀ layer, m.layers layer = [] := by
  simp [firstNonempty]

theorem firstNonempty_eq_some {m : Mlq F A} {layer : Layer} : m.firstNonempty = some layer ↔
      m.layers layer ≠ [] ∧ ∀ lower < layer, m.layers lower = [] := by
  unfold firstNonempty
  rw [List.find?_eq_some_iff_getElem]
  simp only [List.getElem_finRange, List.length_finRange]
  constructor
  · rintro ⟨nonempty, i, bound, rfl, earlier⟩
    refine ⟨by simpa using nonempty, fun lower below => ?_⟩
    simpa using earlier lower below
  · rintro ⟨nonempty, earlier⟩
    refine ⟨by simpa using nonempty, layer, layer.isLt, rfl, fun j below => ?_⟩
    simpa using earlier ⟨j, below.trans layer.isLt⟩ below

end Mlq

def PriorityQueue.freeSlots (pq : PriorityQueue F A) : List Slot := (List.range pq.freeTop).map pq.freeStack

structure Linked (pq : PriorityQueue F A) (lists : Layer → List Slot) : Prop where
  threaded : ∀ layer, Threaded pq.slotNext pq.slotPrev (lists layer)
  head : ∀ layer, pq.layerHead layer = (lists layer).head?
  tail : ∀ layer, pq.layerTail layer = (lists layer).getLast?
  mask : ∀ i, pq.nonemptyMask.getLsbD i = true ↔ ∃ layer : Layer, layer.val = i ∧ lists layer ≠ []

structure Filled (pq : PriorityQueue F A) (layer : Layer) (e : Entry F A) : Prop where
  task : pq.slots e.slot = e.task
  priority : e.task.priority = layer
  callable : e.task.fn.isSome = true
  handle : e.handle = pqMakeHandle (pq.gen e.slot) e.slot

structure Represents (pq : PriorityQueue F A) (m : Mlq F A) : Prop where
  linked : Linked pq m.slots
  partition : (m.entries.map Entry.slot ++ pq.freeSlots).Perm (List.finRange 128)
  size : pq.size = m.entries.length
  filled : ∀ layer, ∀ e ∈ m.layers layer, Filled pq layer e
  free : ∀ slot ∈ pq.freeSlots, (pq.slots slot).fn = none
  nextSeq : pq.nextSeq = BitVec.ofNat 32 m.placed
  nextGen : pq.nextGen = BitVec.ofNat 16 m.placed
  ids : (m.entries.map Entry.id).Nodup
  serial : ∀ e ∈ m.entries, e.id < m.serial

end Flinstone.Sched
