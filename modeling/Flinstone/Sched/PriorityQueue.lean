import Flinstone.Lib.LinkedList
import Mathlib.Data.Fin.Basic
import Mathlib.Data.BitVec

/-!
# The scheduler's multi-level queue

`priority_queue.c`.
-/

namespace Flinstone.Sched
open Flinstone.Lib Function

abbrev Layer := Fin 4

abbrev Slot := Fin 128

/-- A C `int`; as a handle, `-1` is invalid and anything else packs `(gen << 16) | slot`. -/
abbrev PqHandle := BitVec 32

def pqHandleSlot (h : PqHandle) : Nat := (h &&& 0xFF#32).toNat

def pqHandleGen (h : PqHandle) : BitVec 16 := (h >>> 16).setWidth 16

def pqMakeHandle (gen : BitVec 16) (slot : Slot) : PqHandle :=
  (gen.setWidth 32 <<< 16) ||| (BitVec.ofNat 32 slot &&& 0xFF#32)

structure PqTask (F A : Type) where
  fn : Option F
  arg : Option A
  priority : Layer
  seq : BitVec 32
  quantum : BitVec 32
  runtime : BitVec 32

def PqTask.zero {F A : Type} : PqTask F A := ⟨none, none, 0, 0, 0, 0⟩

structure PriorityQueue (F A : Type) where
  slots : Slot → PqTask F A
  layerHead : Layer → Option Slot
  layerTail : Layer → Option Slot
  slotNext : Slot → Option Slot
  slotPrev : Slot → Option Slot
  freeStack : Nat → Slot
  freeTop : Nat
  nonemptyMask : BitVec 64
  gen : Slot → BitVec 16
  nextGen : BitVec 16
  size : Int
  nextSeq : BitVec 32

variable {F A : Type}

/-- Memory that was never written, as one more value for the `pq` of a first `pq_init`. -/
instance : Inhabited (PriorityQueue F A) :=
  ⟨⟨fun _ => .zero, fun _ => none, fun _ => none, fun _ => none, fun _ => none, fun _ => 0, 0, 0, fun _ => 0, 0, 0, 0⟩⟩

def slotOf (h : PqHandle) : Slot := Fin.ofNat 128 (pqHandleSlot h)

def handleValid (pq : PriorityQueue F A) (h : PqHandle) : Bool :=
  if h.msb then false
  else if 128 ≤ pqHandleSlot h then false
  else if (pq.slots (slotOf h)).fn.isNone then false
  else pq.gen (slotOf h) == pqHandleGen h

def setLayerNonempty (mask : BitVec 64) (layer : Layer) (nonempty : Bool) : BitVec 64 :=
  if nonempty then mask ||| (1#64 <<< layer.val) else mask &&& ~~~(1#64 <<< layer.val)

def unlinkSlot (pq : PriorityQueue F A) (slot : Slot) : PriorityQueue F A :=
  let p := pq.slotPrev slot
  let n := pq.slotNext slot
  let layer := (pq.slots slot).priority
  let layerHead := if p.isSome then pq.layerHead else update pq.layerHead layer n
  { pq with
    slotNext := assign pq.slotNext p n
    layerHead := layerHead
    slotPrev := assign pq.slotPrev n p
    layerTail := if n.isSome then pq.layerTail else update pq.layerTail layer p
    nonemptyMask :=
      if (layerHead layer).isNone then setLayerNonempty pq.nonemptyMask layer false
      else pq.nonemptyMask }

def appendToLayer (pq : PriorityQueue F A) (slot : Slot) (layer : Layer) : PriorityQueue F A :=
  let t := pq.layerTail layer
  { pq with
    slots := update pq.slots slot { pq.slots slot with priority := layer }
    slotPrev := update pq.slotPrev slot t
    slotNext := assign (update pq.slotNext slot none) t (some slot)
    layerHead := if t.isSome then pq.layerHead
      else update pq.layerHead layer (some slot)
    layerTail := update pq.layerTail layer (some slot)
    nonemptyMask := setLayerNonempty pq.nonemptyMask layer true }

def freeSlot (pq : PriorityQueue F A) (slot : Slot) : PriorityQueue F A :=
  { pq with
    slots := update pq.slots slot .zero
    freeStack := update pq.freeStack pq.freeTop slot
    freeTop := pq.freeTop + 1 }

def pqInit (_ : PriorityQueue F A) : PriorityQueue F A where
  slots := fun _ => .zero
  layerHead := fun _ => none
  layerTail := fun _ => none
  slotNext := fun _ => some 0
  slotPrev := fun _ => some 0
  freeStack := Fin.ofNat 128
  freeTop := 128
  nonemptyMask := 0
  gen := fun _ => 0
  nextGen := 0
  size := 0
  nextSeq := 0

def priorityValid (priority : Int) : Bool := 0 ≤ priority && priority < 4

def layerOf (priority : Int) : Layer := Fin.ofNat 4 priority.toNat

def pqPush (pq : PriorityQueue F A) (priority : Int) (fn : Option F) (arg : Option A) : PqHandle × PriorityQueue F A :=
  if !priorityValid priority || pq.freeTop == 0 then (-1, pq)
  else
    let slot := pq.freeStack (pq.freeTop - 1)
    let task := { pq.slots slot with fn, arg, seq := pq.nextSeq, quantum := 0, runtime := 0 }
    let filled := { pq with
      freeTop := pq.freeTop - 1
      slots := update pq.slots slot task
      nextSeq := pq.nextSeq + 1
      gen := update pq.gen slot pq.nextGen
      nextGen := pq.nextGen + 1 }
    let linked := appendToLayer filled slot (layerOf priority)
    (pqMakeHandle (linked.gen slot) slot, { linked with size := linked.size + 1 })

/-- `none` is the return value `-1`; `out` says whether the result pointer is non-`NULL`. -/
def popLayerHead (pq : PriorityQueue F A) (layer : Layer) (out : Bool) : Option (PqTask F A) × PriorityQueue F A :=
  match pq.layerHead layer with
  | none => (none, pq)
  | some slot =>
    if !out then (none, pq)
    else
      let freed := freeSlot (unlinkSlot pq slot) slot
      (some (pq.slots slot), { freed with size := freed.size - 1 })

def builtinCtzll (mask : BitVec 64) : Nat := ((List.range 64).find? mask.getLsbD).getD 64

def pqPop (pq : PriorityQueue F A) (out : Bool) : Option (PqTask F A) × PriorityQueue F A :=
  if !out || pq.size == 0 then (none, pq)
  else if pq.nonemptyMask == 0 then (none, pq)
  else popLayerHead pq (Fin.ofNat 4 (builtinCtzll pq.nonemptyMask)) out

def pqPopFromLayer (pq : PriorityQueue F A) (layer : Int) (out : Bool) : Option (PqTask F A) × PriorityQueue F A :=
  if !priorityValid layer || !out then (none, pq)
  else if (pq.nonemptyMask &&& (1#64 <<< (layerOf layer).val)) == 0 then (none, pq)
  else popLayerHead pq (layerOf layer) out

def pqUpdate (pq : PriorityQueue F A) (h : PqHandle) (newPriority : Int) : BitVec 32 × PriorityQueue F A :=
  if !priorityValid newPriority then (-1, pq)
  else if !handleValid pq h then (-1, pq)
  else if (pq.slots (slotOf h)).priority = layerOf newPriority then (0, pq)
  else (0, appendToLayer (unlinkSlot pq (slotOf h)) (slotOf h) (layerOf newPriority))

def pqRemove (pq : PriorityQueue F A) (h : PqHandle) : BitVec 32 × PriorityQueue F A :=
  if !handleValid pq h then (-1, pq)
  else
    let freed := freeSlot (unlinkSlot pq (slotOf h)) (slotOf h)
    (0, { freed with size := freed.size - 1 })

def pqSetQuantum (pq : PriorityQueue F A) (h : PqHandle) (quantum : BitVec 32) : PriorityQueue F A :=
  if !handleValid pq h then pq
  else
    let slot := slotOf h
    { pq with slots := update pq.slots slot { pq.slots slot with quantum } }

def pqIsEmpty (pq : PriorityQueue F A) : Bool := pq.size == 0

def pqCount (pq : PriorityQueue F A) : Int := pq.size

/-- The `for` loop of `pq_count_layer`, cut off after `fuel` links. -/
def countFrom (next : Slot → Option Slot) : Nat → Option Slot → Option Nat
  | _, none => some 0
  | 0, some _ => none
  | fuel + 1, some s => (countFrom next fuel (next s)).map (· + 1)

def pqCountLayer (fuel : Nat) (pq : PriorityQueue F A) (layer : Int) : Option Nat :=
  if !priorityValid layer then some 0
  else countFrom pq.slotNext fuel (pq.layerHead (layerOf layer))

/-- A call of the queue interface; the function pointer of a push is not `NULL`. -/
inductive PqCall (F A : Type) where
  | init
  | push (priority : Int) (fn : F) (arg : Option A)
  | pop (out : Bool)
  | popFromLayer (layer : Int) (out : Bool)
  | update (h : PqHandle) (newPriority : Int)
  | remove (h : PqHandle)
  | setQuantum (h : PqHandle) (quantum : BitVec 32)

/-- The return value (`0` for the `void` calls) and what was stored through `out`. -/
structure PqReply (F A : Type) where
  ret : BitVec 32
  out : Option (PqTask F A)

def popReply (result : Option (PqTask F A)) : PqReply F A :=
  match result with
  | some task => ⟨0, some task⟩
  | none => ⟨-1, none⟩

def pqCall (pq : PriorityQueue F A) : PqCall F A → PqReply F A × PriorityQueue F A
  | .init => (⟨0, none⟩, pqInit pq)
  | .push priority fn arg =>
    let (ret, pq') := pqPush pq priority (some fn) arg
    (⟨ret, none⟩, pq')
  | .pop out =>
    let (result, pq') := pqPop pq out
    (popReply result, pq')
  | .popFromLayer layer out =>
    let (result, pq') := pqPopFromLayer pq layer out
    (popReply result, pq')
  | .update h newPriority =>
    let (ret, pq') := pqUpdate pq h newPriority
    (⟨ret, none⟩, pq')
  | .remove h =>
    let (ret, pq') := pqRemove pq h
    (⟨ret, none⟩, pq')
  | .setQuantum h quantum => (⟨0, none⟩, pqSetQuantum pq h quantum)

end Flinstone.Sched
