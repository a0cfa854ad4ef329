import Flinstone.Sys.Ipc

/-!
# System calls

`vrt.c` and `syscall.c`.
-/

namespace Flinstone.Sys
open Flinstone.Vm Function

inductive VrtType where
  | file | dir | block | buffer | pipe | msgq
  deriving DecidableEq

structure VrtEntry where
  type : VrtType
  resource : Option Nat

def VrtEntry.zero : VrtEntry := ⟨.file, none⟩

inductive Object where
  | pipe (p : Pipe)
  | msgq (q : Msgq)

-- the table `s_table`, `s_inited`, and the heap with the number of its next object
structure Vrt where
  table : Fin 256 → VrtEntry
  inited : Bool
  objects : Nat → Option Object
  nextObject : Nat

def vrtStatics : Vrt := ⟨fun _ => .zero, false, fun _ => none, 0⟩

def vrtInit (sys : Vrt) : Vrt := if sys.inited then sys else { sys with table := fun _ => .zero, inited := true }

def flSysBootstrap (sys : Vrt) : Vrt := vrtInit sys

def vrtAlloc (sys : Vrt) (type : VrtType) (resource : Nat) : Option (Fin 256 × Vrt) :=
  if !sys.inited then none
  else
    ((List.finRange 256).find? fun i => (sys.table i).resource.isNone).map fun i =>
      (i, { sys with table := update sys.table i ⟨type, some resource⟩ })

def vrtFree (sys : Vrt) (h : Size) : Vrt :=
  if inRange : h.toNat < 256 then
    { sys with table := update sys.table ⟨h.toNat, inRange⟩ .zero }
  else sys

def vrtGet (sys : Vrt) (h : Size) : Option (VrtType × Nat) :=
  if inRange : h.toNat < 256 then
    let entry := sys.table ⟨h.toNat, inRange⟩
    entry.resource.map fun resource => (entry.type, resource)
  else none

def Vrt.handle (sys : Vrt) (type : VrtType) (h : Size) : Option Nat :=
  match vrtGet sys h with
  | some (found, id) => if found = type then some id else none
  | none => none

def Vrt.allocate (sys : Vrt) (object : Object) : Nat × Vrt := (sys.nextObject, { sys with
      objects := update sys.objects sys.nextObject (some object)
      nextObject := sys.nextObject + 1 })

def Vrt.store (sys : Vrt) (id : Nat) (object : Option Object) : Vrt :=
  { sys with objects := update sys.objects id object }

def Vrt.pipeAt (sys : Vrt) (id : Nat) : Except Stop Pipe :=
  match sys.objects id with
  | some (.pipe p) => .ok p
  | _ => .error (.dangling id)

def Vrt.msgqAt (sys : Vrt) (id : Nat) : Except Stop Msgq :=
  match sys.objects id with
  | some (.msgq q) => .ok q
  | _ => .error (.dangling id)

variable {n : Nat} {W : Type}

def hostLoad (mem : VmMem n) (ptr : Size) (count : Nat) : Except Stop (List Byte) :=
  if inside : mem.base.toNat ≤ ptr.toNat ∧ ptr.toNat + count ≤ mem.base.toNat + n then
    .ok (List.ofFn fun i : Fin count => mem.ram ⟨ptr.toNat - mem.base.toNat + i, by omega⟩)
  else .error (.pointer ptr.toNat count)

def hostByte (mem : VmMem n) (ptr : Size) (i : Nat) : Except Stop Byte :=
  if inside : mem.base.toNat ≤ ptr.toNat + i ∧ ptr.toNat + i < mem.base.toNat + n then
    .ok (mem.ram ⟨ptr.toNat + i - mem.base.toNat, by omega⟩)
  else .error (.pointer (ptr.toNat + i) 1)

def hostStore (mem : VmMem n) (ptr : Size) (bytes : List Byte) : Except Stop (VmMem n) :=
  if mem.base.toNat ≤ ptr.toNat ∧ ptr.toNat + bytes.length ≤ mem.base.toNat + n then
    .ok { mem with ram := overwrite mem.ram (ptr.toNat - mem.base.toNat) bytes }
  else .error (.pointer ptr.toNat bytes.length)

structure Caller (n : Nat) (W : Type) where
  mem : VmMem n
  sys : Vrt
  world : W

def sysWrite (env : Env W) (buf : Size) (count : Nat) (c : Caller n W) : Except Stop (Size × Caller n W) :=
  if buf = 0 then .ok (-1, c)
  else do
    let bytes ← hostLoad c.mem buf count
    let (wr, world) := env.write bytes c.world
    return (if wr.msb then -1 else wr, { c with world })

def sysRead (env : Env W) (buf : Size) (count : Nat) (c : Caller n W) : Except Stop (Size × Caller n W) :=
  if buf = 0 then .ok (-1, c)
  else
    match env.read count c.world with
    | (none, world) => .ok (-1, { c with world })
    | (some bytes, world) => do
        let mem ← hostStore c.mem buf (bytes.take count)
        return (BitVec.ofNat 64 (bytes.take count).length, { c with mem, world })

def sysPipeCreate (env : Env W) (size : Size) (c : Caller n W) : Except Stop (Size × Caller n W) :=
  match pipeCreate env size c.world with
  | (none, world) => .ok (-1, { c with world })
  | (some p, world) =>
    let (id, sys) := c.sys.allocate (.pipe p)
    match vrtAlloc sys .pipe id with
    | some (h, sys) => .ok (BitVec.ofNat 64 h, { c with sys, world })
    | none => do
        pipeDestroy p
        return (-1, { c with sys := sys.store id none, world })

def sysPipeRead (env : Env W) (h buf : Size) (count : Nat) (c : Caller n W) : Except Stop (Size × Caller n W) :=
  match c.sys.handle .pipe h with
  | some id =>
    -- `pipe_read` makes this check before it looks at the pipe; so do the calls below
    if buf = 0 ∨ count = 0 then .ok (-1, c)
    else do
      let p ← c.sys.pipeAt id
      let (result, p', world) ← pipeRead env p count c.world
      let sys := c.sys.store id (some (.pipe p'))
      match result with
      | none => return (-1, { c with sys, world })
      | some bytes =>
        let mem ← hostStore c.mem buf bytes
        return (BitVec.ofNat 64 bytes.length, { mem, sys, world })
  | none => .ok (-1, c)

def sysPipeWrite (h buf : Size) (count : Nat) (c : Caller n W) : Except Stop (Size × Caller n W) :=
  match c.sys.handle .pipe h with
  | some id =>
    if buf = 0 ∨ count = 0 then .ok (-1, c)
    else do
      let p ← c.sys.pipeAt id
      let (ret, p') ← pipeWrite p (hostByte c.mem buf) count
      return (ret, { c with sys := c.sys.store id (some (.pipe p')) })
  | none => .ok (-1, c)

def sysMsgqCreate (env : Env W) (maxMsgs msgSize : Size) (c : Caller n W) : Except Stop (Size × Caller n W) :=
  match msgqCreate env maxMsgs msgSize c.world with
  | (none, world) => .ok (-1, { c with world })
  | (some q, world) =>
    let (id, sys) := c.sys.allocate (.msgq q)
    match vrtAlloc sys .msgq id with
    | some (h, sys) => .ok (BitVec.ofNat 64 h, { c with sys, world })
    | none => do
        msgqDestroy q
        return (-1, { c with sys := sys.store id none, world })

def sysMsgqSend (h buf : Size) (size : Nat) (c : Caller n W) : Except Stop (Size × Caller n W) :=
  match c.sys.handle .msgq h with
  | some id =>
    if buf = 0 ∨ size = 0 then .ok (-1, c)
    else do
      let q ← c.sys.msgqAt id
      let (ret, q') ← msgqSend q (hostLoad c.mem buf size) size
      return (ret, { c with sys := c.sys.store id (some (.msgq q')) })
  | none => .ok (-1, c)

def sysMsgqRecv (env : Env W) (h buf : Size) (size : Nat) (timeoutMs : Size) (c : Caller n W) :
    Except Stop (Size × Caller n W) :=
  match c.sys.handle .msgq h with
  | some id =>
    if buf = 0 ∨ size = 0 then .ok (-1, c)
    else do
      let q ← c.sys.msgqAt id
      let (result, q', world) ← msgqReceive env q size timeoutMs c.world
      let sys := c.sys.store id (some (.msgq q'))
      match result with
      | none => return (-1, { c with sys, world })
      | some bytes =>
        let mem ← hostStore c.mem buf bytes
        return (0, { mem, sys, world })
  | none => .ok (-1, c)

def sysClose (h : Size) (c : Caller n W) : Except Stop (Size × Caller n W) :=
  match vrtGet c.sys h with
  | some (.pipe, id) => do
      let p ← c.sys.pipeAt id
      pipeDestroy p
      return (0, { c with sys := vrtFree (c.sys.store id none) h })
  | some (.msgq, id) => do
      let q ← c.sys.msgqAt id
      msgqDestroy q
      return (0, { c with sys := vrtFree (c.sys.store id none) h })
  | _ => .ok (-1, c)

inductive FlSyscallNo where
  | write | read | pipeCreate | pipeRead | pipeWrite | msgqCreate | msgqSend | msgqRecv | close
  deriving DecidableEq

-- `fl_syscall_no_t` has 32 bits, most of whose values name no call
def flSyscallNo (no : Word) : Option FlSyscallNo :=
  match no.toNat with
  | 1 => some .write
  | 2 => some .read
  | 3 => some .pipeCreate
  | 4 => some .pipeRead
  | 5 => some .pipeWrite
  | 6 => some .msgqCreate
  | 7 => some .msgqSend
  | 8 => some .msgqRecv
  | 9 => some .close
  | _ => none

def flSyscallDispatch (env : Env W) (no : Word) (a0 a1 a2 a3 : Size) (c : Caller n W) :
    Except Stop (Size × Caller n W) :=
  match flSyscallNo no with
  | some .write => sysWrite env a0 a1.toNat c
  | some .read => sysRead env a0 a1.toNat c
  | some .pipeCreate => sysPipeCreate env a0 c
  | some .pipeRead => sysPipeRead env a0 a1 a2.toNat c
  | some .pipeWrite => sysPipeWrite a0 a1 a2.toNat c
  | some .msgqCreate => sysMsgqCreate env a0 a1 c
  | some .msgqSend => sysMsgqSend a0 a1 a2.toNat c
  | some .msgqRecv => sysMsgqRecv env a0 a1 a2.toNat a3 c
  | some .close => sysClose a0 c
  | none => .ok (-1, c)

end Flinstone.Sys
