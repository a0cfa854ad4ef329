import Flinstone.Drivers.Resources

/-!
# Interrupt slots

`s_irq` of `driver_model.c`.
-/

namespace Flinstone.Drivers
open Flinstone.Lib

structure Handler where
  function : Nat
  ctx : Nat
  deriving DecidableEq

structure IrqSlot where
  handler : Option Handler
  owner : Option Nat
  enabled : Bool
  dispatchCount : BitVec 64
  eoiCount : BitVec 64

def IrqSlot.zero : IrqSlot := ⟨none, none, false, 0, 0⟩

def maxIrq : Nat := 64

abbrev IrqTable := Fin maxIrq → IrqSlot

def flIrqInit : IrqTable := fun _ => .zero

-- the guard `irq < 0 || irq >= FL_MODEL_MAX_IRQ`
def irqIndex (irq : Int) : Option (Fin maxIrq) :=
  if inside : 0 ≤ irq ∧ irq < maxIrq then some ⟨irq.toNat, by omega⟩ else none

def IrqTable.set (table : IrqTable) (i : Fin maxIrq) (slot : IrqSlot) : IrqTable := Function.update table i slot

def irqOwnerFromResources (irq : Fin maxIrq) (claims : Claims) : Option Nat :=
  (claims.find? fun claim => claim.resource.type = .irq ∧ claim.resource.start = BitVec.ofNat 64 irq).map (·.owner)

def flIrqRegister (irq : Int) (handler : Option Handler) (claims : Claims) (table : IrqTable) : Bool × IrqTable :=
  match irqIndex irq, handler with
  | some i, some handler =>
    match irqOwnerFromResources i claims with
    | none => (false, table)
    | some owner =>
      if (table i).handler.isSome then (false, table)
      else (true, table.set i { table i with handler := some handler, owner := some owner })
  | _, _ => (false, table)

def deviceIrqLoop (index : Int) : Int → List ResourceClaim → Option Int
  | _, [] => none
  | seen, claim :: rest =>
    if claim.resource.type ≠ .irq then deviceIrqLoop index seen rest
    else if seen = index then some (claim.resource.start.setWidth 32).toInt
    else deviceIrqLoop index (seen + 1) rest

def deviceIrqAt (dev : Device) (index : Int) (claims : Claims) : Option Int :=
  if index < 0 then none else deviceIrqLoop index 0 (claims.filter fun claim => claim.owner = dev.id)

def flIrqRegisterDevice (dev : Device) (index : Int) (handler : Option Handler) (claims : Claims) (table : IrqTable) :
    Bool × IrqTable :=
  match deviceIrqAt dev index claims with
  | none => (false, table)
  | some irq => flIrqRegister irq handler claims table

def flIrqUnregister (irq : Int) (table : IrqTable) : IrqTable :=
  match irqIndex irq with
  | none => table
  | some i => table.set i .zero

def flIrqUnregisterDevice (dev : Device) (table : IrqTable) : IrqTable :=
  fun i => if (table i).owner = some dev.id then .zero else table i

def flIrqEnable (irq : Int) (enabled : Bool) (table : IrqTable) : IrqTable :=
  match irqIndex irq with
  | none => table
  | some i => table.set i { table i with enabled }

def flIrqDispatch (irq : Int) (table : IrqTable) : Option (Handler × Option Nat × IrqTable) :=
  match irqIndex irq with
  | none => none
  | some i =>
    match (table i).enabled, (table i).handler with
    | true, some handler =>
      some (handler, (table i).owner, table.set i { table i with
        dispatchCount := (table i).dispatchCount + 1
        eoiCount := (table i).eoiCount + 1 })
    | _, _ => none

inductive IrqCall where
  | register (irq : Int) (handler : Option Handler)
  | registerDevice (dev : Device) (index : Int) (handler : Option Handler)
  | unregister (irq : Int)
  | unregisterDevice (dev : Device)
  | enable (irq : Int) (enabled : Bool)

def IrqCall.run (claims : Claims) : IrqCall → IrqTable → IrqTable
  | register irq handler, table => (flIrqRegister irq handler claims table).2
  | registerDevice dev index handler, table => (flIrqRegisterDevice dev index handler claims table).2
  | unregister irq, table => flIrqUnregister irq table
  | unregisterDevice dev, table => flIrqUnregisterDevice dev table
  | enable irq enabled, table => flIrqEnable irq enabled table

def runIrqCalls (claims : Claims) (calls : List IrqCall) (table : IrqTable) : IrqTable :=
  calls.foldl (fun table call => call.run claims table) table

end Flinstone.Drivers
