import Flinstone.Lib.Ring
import Flinstone.Sys.Env

/-!
# Pipes and message queues

`ipc.c` in the hosted build, with a single thread: a wait ends only by a spurious wake-up or at its deadline.
-/

namespace Flinstone.Sys
open Flinstone.Lib Flinstone.Vm

variable {W : Type}

structure Pipe where
  cap : Nat
  buf : Fin cap → Byte
  ring : Ring cap
  closing : Bool
  waiters : Nat

-- `sizeof(pipe_t)` and `sizeof(msgq_t)` with the usual 64-bit layout
def pipeStructSize : Nat := 232
def msgqStructSize : Nat := 240

-- fresh heap memory holds arbitrary bytes; no byte is read before it was written
def pipeCreate (env : Env W) (size : Size) (w : W) : Option Pipe × W :=
  if positive : 0 < size.toNat then
    match env.malloc pipeStructSize w with
    | (none, w) => (none, w)
    | (some _, w) =>
      match env.malloc size.toNat w with
      | (none, w) => (none, w)
      | (some _, w) => (some ⟨size.toNat, fun _ => 0, .empty positive, false, 0⟩, w)
  else (none, w)

-- waits on `drain` while readers are inside; a single thread never leaves one there
def pipeDestroy (p : Pipe) : Except Stop Unit := if p.waiters > 0 then .error .blocked else .ok ()

def Pipe.put (p : Pipe) (b : Byte) (room : p.ring.len < p.cap) : Pipe :=
  { p with buf := Function.update p.buf p.ring.tail b, ring := p.ring.push room }

def Pipe.drop (p : Pipe) (occupied : 0 < p.ring.len) : Pipe := { p with ring := p.ring.pop occupied }

-- the copy loop of `pipe_write`, which reads `src[written]` only for a byte it has room for
def pipePut (src : Nat → Except Stop Byte) (p : Pipe) (written : Nat) : Nat → Except Stop (Pipe × Nat)
  | 0 => .ok (p, written)
  | count + 1 =>
    if room : p.ring.len < p.cap then
      match src written with
      | .error stop => .error stop
      | .ok b => pipePut src (p.put b room) (written + 1) count
    else .ok (p, written)

def pipeWrite (p : Pipe) (src : Nat → Except Stop Byte) (count : Nat) : Except Stop (Size × Pipe) :=
  if count = 0 then .ok (-1, p)
  else if p.closing then .ok (-1, p)
  else
    match pipePut src p 0 count with
    | .error stop => .error stop
    | .ok (p', written) => .ok (BitVec.ofNat 64 written, p')

def pipeTake (p : Pipe) : Nat → Pipe × List Byte
  | 0 => (p, [])
  | count + 1 =>
    if occupied : 0 < p.ring.len then
      let (p', bytes) := pipeTake (p.drop occupied) count
      (p', p.buf p.ring.head :: bytes)
    else (p, [])

def Pipe.starved (p : Pipe) : Bool := p.ring.len == 0 && !p.closing

def awaitReadable (p : Pipe) : Nat → Except Stop Pipe
  | 0 => if p.starved then .error .blocked else .ok p
  | wakeups + 1 =>
    if p.starved then awaitReadable { p with waiters := p.waiters + 1 - 1 } wakeups else .ok p

-- `none` for the bytes is the return value `-1`
def pipeRead (env : Env W) (p : Pipe) (count : Nat) (w : W) : Except Stop (Option (List Byte) × Pipe × W) :=
  if count = 0 then .ok (none, p, w)
  else
    let (wakeups, w) := if p.starved then env.condWait w else (0, w)
    match awaitReadable p wakeups with
    | .error stop => .error stop
    | .ok p =>
      if p.closing && p.ring.len == 0 then .ok (none, p, w)
      else
        let (p', bytes) := pipeTake p count
        .ok (some bytes, p', w)

-- `capacity` is what `malloc` granted for `buf`
structure Msgq where
  maxMessages : Nat
  messageSize : Nat
  capacity : Nat
  buf : Nat → Byte
  ring : Ring maxMessages
  closing : Bool
  waiters : Nat

-- the product is a `size_t`
def msgqBufferSize (maxMessages messageSize : Size) : Nat := (maxMessages * messageSize).toNat

def msgqCreate (env : Env W) (maxMessages messageSize : Size) (w : W) : Option Msgq × W :=
  if positive : 0 < maxMessages.toNat ∧ 0 < messageSize.toNat then
    match env.malloc msgqStructSize w with
    | (none, w) => (none, w)
    | (some _, w) =>
      match env.malloc (msgqBufferSize maxMessages messageSize) w with
      | (none, w) => (none, w)
      | (some capacity, w) =>
        -- `pthread_condattr_init`, `pthread_condattr_setclock`, `pthread_cond_init`
        match env.succeeds w with
        | (false, w) => (none, w)
        | (true, w) =>
          match env.succeeds w with
          | (false, w) => (none, w)
          | (true, w) =>
            match env.succeeds w with
            | (false, w) => (none, w)
            | (true, w) =>
              (some ⟨maxMessages.toNat, messageSize.toNat, capacity, fun _ => 0,
                .empty positive.1, false, 0⟩, w)
  else (none, w)

def msgqDestroy (q : Msgq) : Except Stop Unit := if q.waiters > 0 then .error .blocked else .ok ()

def Msgq.slot (q : Msgq) (i : Fin q.maxMessages) : Nat := i.val * q.messageSize % 2 ^ 64

def Msgq.fill (q : Msgq) (msg : List Byte) : Nat → Byte :=
  let slot := q.slot q.ring.tail
  fun i => if slot ≤ i ∧ i < slot + q.messageSize then msg.getD (i - slot) 0 else q.buf i

def Msgq.load (q : Msgq) (count : Nat) : Except Stop (List Byte) :=
  let slot := q.slot q.ring.head
  if slot + count ≤ q.capacity then .ok ((List.range count).map fun i => q.buf (slot + i))
  else .error (.heap slot count)

-- `msg` is the result of reading the `size` bytes of the message
def msgqSend (q : Msgq) (msg : Except Stop (List Byte)) (size : Nat) : Except Stop (Size × Msgq) :=
  if size = 0 then .ok (-1, q)
  else if size > q.messageSize then .ok (-1, q)
  else if q.closing then .ok (-1, q)
  else if room : q.ring.len < q.maxMessages then
    if q.slot q.ring.tail + q.messageSize ≤ q.capacity then
      match msg with
      | .error stop => .error stop
      | .ok bytes => .ok (0, { q with buf := q.fill bytes, ring := q.ring.push room })
    else .error (.heap (q.slot q.ring.tail) q.messageSize)
  else .ok (-1, q)

def awaitMessage (q : Msgq) : List Word → Bool
  | [] => false
  | rc :: codes =>
    if q.ring.len == 0 && !q.closing then
      if rc ≠ 0 then false else awaitMessage { q with waiters := q.waiters + 1 - 1 } codes
    else true

def msgqTake (q : Msgq) (size : Nat) : Except Stop (Option (List Byte) × Msgq) :=
  if occupied : 0 < q.ring.len then
    match q.load (min size q.messageSize) with
    | .error stop => .error stop
    | .ok bytes => .ok (some bytes, { q with ring := q.ring.pop occupied })
  else .ok (none, q)

def msgqReceive (env : Env W) (q : Msgq) (size : Nat) (timeoutMs : Size) (w : W) :
    Except Stop (Option (List Byte) × Msgq × W) :=
  if size = 0 then .ok (none, q, w)
  else if q.closing then .ok (none, q, w)
  else if q.ring.len == 0 && timeoutMs == 0 then .ok (none, q, w)
  else
    let (arrived, w) :=
      if q.ring.len == 0 then
        let (codes, w) := env.condTimedwait w
        (awaitMessage q codes, w)
      else (true, w)
    if !arrived then .ok (none, q, w)
    else
      match msgqTake q size with
      | .error stop => .error stop
      | .ok (bytes, q) => .ok (bytes, q, w)

end Flinstone.Sys
