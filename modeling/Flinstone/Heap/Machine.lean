import Flinstone.Lib.Bytes
import Mathlib.Logic.Function.Iterate

/-!
# The assembly heap

`malloc` and `free` of `arch/x86_64/gas/alloc`.
-/

namespace Flinstone.Heap
open Flinstone.Lib

structure Registers where
  rax : Nat
  rbx : Nat
  rcx : Nat
  rdx : Nat
  rdi : Nat
  rsi : Nat
  r8 : Nat
  r9 : Nat
  r12 : Nat
  r13 : Nat

structure Machine extends Registers where
  stack : List Nat
  mem : Memory
  heapEnd : Nat
  freeHead : Nat
  allocLock : Nat
  brk : Nat

def Machine.word (m : Machine) (p : Nat) : Nat := m.mem.load 8 p

def Machine.setWord (m : Machine) (p v : Nat) : Machine := { m with mem := m.mem.store 8 p v }

def Machine.pushq (m : Machine) (v : Nat) : Machine := { m with stack := v :: m.stack }

def Machine.top (m : Machine) : Nat := m.stack.headD 0

def Machine.dropTop (m : Machine) : Machine := { m with stack := m.stack.tail }

def lea (base offset : Nat) : Nat := (base + offset) % 2 ^ 64

def addq (a b : Nat) : Nat := (a + b) % 2 ^ 64

def subq (a b : Nat) : Nat := if b ≤ a then a - b else 2 ^ 64 - (b - a)

def andMinus16 (v : Nat) : Nat := v &&& (2 ^ 64 - 16)

def hdrSize : Nat := 16

def flagFree : Nat := 1

/-! ## alloc_core.s -/

-- with the lock taken it spins; there is one thread, so it spins for ever
def lockAcquire (m : Machine) : Option Machine :=
  if m.allocLock = 0 then some { m with rax := 0, allocLock := 1 } else none

def lockRelease (m : Machine) : Machine := { m with allocLock := 0 }

def align16 (m : Machine) : Machine :=
  let m := { m with rax := lea m.rdi 15 }
  { m with rax := andMinus16 m.rax }

/-- Whether the kernel grants a new break, and what the system call leaves in `rcx`. -/
structure Answer where
  grants : Bool
  rcx : Nat

def sysBrk (answer : Answer) (m : Machine) : Machine :=
  let m := { m with rcx := answer.rcx }
  if m.rdi = 0 then { m with rax := m.brk }
  else if answer.grants then { m with rax := m.rdi, brk := m.rdi }
  else { m with rax := m.brk }

def initHeapOnceNolock (answer : Answer) (m : Machine) : Machine :=
  let m := { m with rax := m.heapEnd }
  if m.rax = 0 then
    let m := { m with rdi := 0 }
    let m := sysBrk answer m
    { m with heapEnd := m.rax }
  else m

def unlinkFree (m : Machine) : Machine :=
  if m.rdi = 0 then
    let m := { m with rax := m.word (lea m.rsi 8) }
    { m with freeHead := m.rax }
  else
    let m := { m with rax := m.word (lea m.rsi 8) }
    m.setWord (lea m.rdi 8) m.rax

def pushFree (m : Machine) : Machine :=
  let m := { m with rax := m.freeHead }
  let m := m.setWord (lea m.rdi 8) m.rax
  { m with freeHead := m.rdi }

def addresses : Nat := 2 ^ 64

-- `.Lfind_fit`; whether a block was found, which is then in `rbx`
def findFit : Nat → Machine → Option (Bool × Machine)
  | 0, _ => none
  | fuel + 1, m =>
    if m.rbx = 0 then some (false, m)
    else
      let m := { m with rax := m.word m.rbx }
      let m := { m with rax := andMinus16 m.rax }
      if m.rax < m.r12 then
        -- `.Lnext`
        let m := { m with r13 := m.rbx }
        let m := { m with rbx := m.word (lea m.rbx 8) }
        findFit fuel m
      else some (true, m)

def returnPtr (m : Machine) : Machine := { m with rax := lea m.rbx hdrSize }

def useWhole (m : Machine) : Machine :=
  let m := { m with rax := m.word m.rbx }
  let m := { m with rax := andMinus16 m.rax }
  let m := m.setWord m.rbx m.rax
  returnPtr m

def splitBlock (m : Machine) : Machine :=
  let m := { m with rdx := lea m.rbx hdrSize }
  let m := { m with rdx := addq m.rdx m.r12 }
  let m := { m with rax := subq m.rax hdrSize }
  let m := { m with rcx := m.rax }
  let m := { m with rcx := m.rcx ||| flagFree }
  let m := m.setWord m.rdx m.rcx
  let m := { m with rdi := m.rdx }
  let m := pushFree m
  let m := m.setWord m.rbx m.r12
  returnPtr m

def takeFit (m : Machine) : Machine :=
  let m := { m with rdi := m.r13 }
  let m := { m with rsi := m.rbx }
  let m := unlinkFree m
  let m := { m with rax := m.word m.rbx }
  let m := { m with rax := andMinus16 m.rax }
  let m := { m with rax := subq m.rax m.r12 }
  if m.rax < hdrSize + 16 then useWhole m else splitBlock m

-- `.Lno_fit`
def growHeap (answer : Answer) (m : Machine) : Machine :=
  let m := { m with rbx := m.heapEnd }
  let m := { m with rdi := lea m.rbx hdrSize }
  let m := { m with rdi := addq m.rdi m.r12 }
  let m := sysBrk answer m
  if m.rax < m.rdi then { m with rax := 0 }
  else
    let m := { m with heapEnd := m.rax }
    let m := m.setWord m.rbx m.r12
    returnPtr m

def mallocNolock (answer : Answer) (m : Machine) : Option Machine :=
  if m.rdi = 0 then some { m with rax := 0 }
  else do
    let m := align16 m
    let m := { m with r12 := m.rax }
    let m := { m with r13 := 0 }
    let m := { m with rbx := m.freeHead }
    let (found, m) ← findFit addresses m
    return if found then takeFit m else growHeap answer m

/-! ## alloc_malloc.s -/

def malloc (answer : Answer) (m : Machine) : Option Machine := do
  let m := m.pushq m.rbx
  let m := m.pushq m.r12
  let m := m.pushq m.r13
  let m := { m with r12 := m.rdi }
  let m ← lockAcquire m
  let m := initHeapOnceNolock answer m
  let m := { m with rdi := m.r12 }
  let m ← mallocNolock answer m
  let m := { m with rbx := m.rax }
  let m := lockRelease m
  let m := { m with rax := m.rbx }
  let m := { m.dropTop with r13 := m.top }
  let m := { m.dropTop with r12 := m.top }
  let m := { m.dropTop with rbx := m.top }
  return m

/-! ## alloc_free.s -/

-- `.Lsearch`; whether the block in `r12` was found, the one before it is then in `r8`
def search : Nat → Machine → Option (Bool × Machine)
  | 0, _ => none
  | fuel + 1, m =>
    if m.r9 = 0 then some (false, m)
    else if m.r9 = m.r12 then some (true, m)
    else
      let m := { m with r8 := m.r9 }
      let m := { m with r9 := m.word (lea m.r9 8) }
      search fuel m

def markFree (m : Machine) : Machine :=
  let m := { m with rax := m.word m.rbx }
  let m := { m with rax := andMinus16 m.rax }
  let m := { m with rax := m.rax ||| flagFree }
  let m := m.setWord m.rbx m.rax
  let m := { m with rdi := m.rbx }
  pushFree m

-- `.Lfound`
def absorb (m : Machine) : Machine :=
  let m := { m with rdi := m.r8 }
  let m := { m with rsi := m.r12 }
  let m := unlinkFree m
  let m := { m with rax := m.word m.rbx }
  let m := { m with rax := andMinus16 m.rax }
  let m := { m with rdx := m.word m.r12 }
  let m := { m with rdx := andMinus16 m.rdx }
  let m := { m with rax := addq m.rax hdrSize }
  let m := { m with rax := addq m.rax m.rdx }
  let m := { m with rax := m.rax ||| flagFree }
  m.setWord m.rbx m.rax

def coalesce (m : Machine) : Option Machine :=
  let m := { m with rax := m.word m.rbx }
  let m := { m with rax := andMinus16 m.rax }
  let m := { m with r12 := lea m.rbx hdrSize }
  let m := { m with r12 := addq m.r12 m.rax }
  let m := { m with rcx := m.heapEnd }
  if m.rcx ≤ m.r12 then some m
  else
    let m := { m with rdx := m.word m.r12 }
    if m.rdx &&& flagFree = 0 then some m
    else do
      let m := { m with r8 := 0 }
      let m := { m with r9 := m.freeHead }
      let (found, m) ← search addresses m
      return if found then absorb m else m

def free (answer : Answer) (m : Machine) : Option Machine :=
  let m := m.pushq m.rbx
  let m := m.pushq m.r12
  if m.rdi = 0 then some (finish m)
  else do
    let m ← lockAcquire m
    let m := initHeapOnceNolock answer m
    let m := { m with rbx := subq m.rdi hdrSize }
    let m ← coalesce (markFree m)
    return finish (lockRelease m)
where
  finish (m : Machine) : Machine :=
    let m := { m.dropTop with r12 := m.top }
    { m.dropTop with rbx := m.top }

end Flinstone.Heap
