import Flinstone.Lib.Calls
import Flinstone.Lib.Text
import Mathlib.Data.List.FinRange
import Mathlib.Logic.Function.Basic

/-!
# Device files

The devfs table of `driver_model.c`.
-/

namespace Flinstone.Drivers
open Flinstone.Lib Function Option

structure DevfsOps where
  read : Option Nat
  write : Option Nat
  byteRead : Option Nat
  byteWrite : Option Nat
  ioctl : Option Nat
  deriving DecidableEq

structure DevfsNode where
  path : Text
  dev : Nat
  ops : DevfsOps
  serial : Nat
  deriving DecidableEq

def maxDevfs : Nat := 32

abbrev Place := Fin maxDevfs

structure DevfsFile where
  node : Option Place
  pos : BitVec 64
  flags : BitVec 32

structure Devfs where
  nodes : Place → DevfsNode
  count : Nat
  bounded : count ≤ maxDevfs
  files : Nat → DevfsFile
  serial : Nat
  opened : Nat → Option DevfsNode

def Devfs.empty : Devfs where
  nodes := fun _ => ⟨[], 0, ⟨none, none, none, none, none⟩, 0⟩
  count := 0
  bounded := Nat.zero_le _
  files := fun _ => ⟨none, 0, 0⟩
  serial := 0
  opened := fun _ => none

def Devfs.find (s : Devfs) (path : Text) : Option Place :=
  (List.finRange maxDevfs).find? fun i => i.val < s.count ∧ (s.nodes i).path = path

-- `none`: `model_overflow_panic` does not return. A device address of 0 is a null pointer.
def flDevfsRegister (path : Text) (dev : Nat) (ops : DevfsOps) (s : Devfs) : Option (Bool × Devfs) :=
  if dev = 0 then some (false, s)
  else if room : s.count < maxDevfs then
    if path.length ≥ 32 then some (false, s)
    else if (s.find path).isSome then some (false, s)
    else some (true, { s with
      nodes := update s.nodes ⟨s.count, room⟩ ⟨path, dev, ops, s.serial⟩
      count := s.count + 1
      bounded := room
      serial := s.serial + 1 })
  else none

def Devfs.last (s : Devfs) (i : Place) : Place := ⟨s.count - 1, by have := s.bounded; have := i.isLt; omega⟩

def flDevfsUnregister (path : Text) (s : Devfs) : Devfs :=
  match s.find path with
  | none => s
  | some i => { s with
      nodes := update s.nodes i (s.nodes (s.last i))
      count := s.count - 1
      bounded := (Nat.sub_le _ _).trans s.bounded }

def Devfs.setFile (s : Devfs) (f : Nat) (file : DevfsFile) : Devfs := { s with files := update s.files f file }

def flDevfsOpen (path : Text) (flags : BitVec 32) (f : Nat) (s : Devfs) : Bool × Devfs :=
  match s.find path with
  | none => (false, s)
  | some i => (true, { s.setFile f ⟨some i, 0, flags⟩ with opened := update s.opened f (some (s.nodes i)) })

def flDevfsClose (f : Nat) (s : Devfs) : Devfs :=
  { s.setFile f ⟨none, 0, 0⟩ with opened := update s.opened f none }

structure Invocation where
  function : Nat
  dev : Nat
  unit : Option (BitVec 32)
  deriving DecidableEq

/-- What the called function returns and stores in `*read_out` or `*written_out`. -/
structure Reply where
  rc : Int
  moved : BitVec 64

def select (bytes block : Option Nat) (node : DevfsNode) (pos : BitVec 64) : Option Invocation :=
  match bytes, block with
  | some function, _ => some ⟨function, node.dev, none⟩
  | none, some function => some ⟨function, node.dev, some ((pos / 512).setWidth 32)⟩
  | none, none => none

def transfer (mode : BitVec 32) (choose : DevfsNode → BitVec 64 → Option Invocation) (f : Nat) (reply : Reply)
    (s : Devfs) : Option Invocation × Devfs :=
  match (s.files f).node with
  | none => (none, s)
  | some i =>
    if (s.files f).flags &&& mode = 0 then (none, s)
    else
      match choose (s.nodes i) (s.files f).pos with
      | none => (none, s)
      | some call =>
        if reply.rc = 0 then
          (some call, s.setFile f { s.files f with pos := (s.files f).pos + reply.moved })
        else (some call, s)

def readOp (node : DevfsNode) : BitVec 64 → Option Invocation := select node.ops.byteRead node.ops.read node

def writeOp (node : DevfsNode) : BitVec 64 → Option Invocation := select node.ops.byteWrite node.ops.write node

def ioctlOp (node : DevfsNode) : Option Invocation := node.ops.ioctl.map fun function => ⟨function, node.dev, none⟩

def flDevfsRead : Nat → Reply → Devfs → Option Invocation × Devfs := transfer 1 readOp

def flDevfsWrite : Nat → Reply → Devfs → Option Invocation × Devfs := transfer 2 writeOp

def flDevfsIoctl (f : Nat) (s : Devfs) : Option Invocation × Devfs :=
  match (s.files f).node with
  | none => (none, s)
  | some i => (ioctlOp (s.nodes i), s)

inductive DevfsCall where
  | register (path : Text) (dev : Nat) (ops : DevfsOps)
  | unregister (path : Text)
  | opens (path : Text) (flags : BitVec 32) (f : Nat)
  | read (f : Nat) (reply : Reply)
  | write (f : Nat) (reply : Reply)
  | ioctl (f : Nat)
  | close (f : Nat)

def DevfsCall.run : DevfsCall → Devfs → Option Devfs
  | register path dev ops, s => (flDevfsRegister path dev ops s).map (·.2)
  | unregister path, s => some (flDevfsUnregister path s)
  | opens path flags f, s => some (flDevfsOpen path flags f s).2
  | read f reply, s => some (flDevfsRead f reply s).2
  | write f reply, s => some (flDevfsWrite f reply s).2
  | ioctl f, s => some (flDevfsIoctl f s).2
  | close f, s => some (flDevfsClose f s)

abbrev DevfsReaches (allowed : Devfs → DevfsCall → Prop) : Devfs → Prop :=
  Reached (fun s call s' => call.run s = some s') allowed .empty

def Devfs.Registered (s : Devfs) (node : DevfsNode) : Prop := ∃ i, i.val < s.count ∧ s.nodes i = node

structure StaysBound (s : Devfs) (f : Nat) : Prop where
  read : ∀ reply call, (flDevfsRead f reply s).1 = some call →
    ∃ node, s.opened f = some node ∧ s.Registered node ∧ readOp node (s.files f).pos = some call
  write : ∀ reply call, (flDevfsWrite f reply s).1 = some call →
    ∃ node, s.opened f = some node ∧ s.Registered node ∧ writeOp node (s.files f).pos = some call
  ioctl : ∀ call, (flDevfsIoctl f s).1 = some call →
    ∃ node, s.opened f = some node ∧ s.Registered node ∧ ioctlOp node = some call

def QuietCall (s : Devfs) : DevfsCall → Prop
  | .unregister path => ∀ i, s.find path = some i → ∀ f, (s.files f).node ≠ some i ∧ (s.files f).node ≠ some (s.last i)
  | _ => True

def Attached (s : Devfs) : Prop := ∀ f i, (s.files f).node = some i → i.val < s.count ∧ s.opened f = some (s.nodes i)

variable {s s' : Devfs} {path : Text} {f : Nat}

theorem find_spec {i : Place} (found : s.find path = some i) : i.val < s.count ∧ (s.nodes i).path = path := by
  simpa using List.find?_some found

theorem transfer_calls {mode : BitVec 32} {choose : DevfsNode → BitVec 64 → Option Invocation}
    {reply : Reply} {call : Invocation} (called : (transfer mode choose f reply s).1 = some call) :
    ∃ i, (s.files f).node = some i ∧ choose (s.nodes i) (s.files f).pos = some call := by
  unfold transfer at called
  split at called
  · cases called
  · next i pointing =>
      split at called
      · cases called
      · split at called
        · cases called
        · next chosen =>
            split at called
            · exact ⟨i, pointing, chosen.trans called⟩
            · exact ⟨i, pointing, chosen.trans called⟩

theorem Attached.staysBound (attached : Attached s) (f : Nat) : StaysBound s f := by
  have reached {call : Invocation} {choose : DevfsNode → Option Invocation}
      (pointing : ∃ i, (s.files f).node = some i ∧ choose (s.nodes i) = some call) :
      ∃ node, s.opened f = some node ∧ s.Registered node ∧ choose node = some call := by
    obtain ⟨i, pointing, chosen⟩ := pointing
    obtain ⟨inside, opened⟩ := attached f i pointing
    exact ⟨s.nodes i, opened, ⟨i, inside, rfl⟩, chosen⟩
  constructor
  · exact fun reply call called => reached (transfer_calls called)
  · exact fun reply call called => reached (transfer_calls called)
  · intro call called
    unfold flDevfsIoctl at called
    split at called
    · cases called
    · next i pointing => exact reached ⟨i, pointing, called⟩

theorem Attached.setFile (attached : Attached s) (f : Nat) (file : DevfsFile) (opened : Option DevfsNode)
    (new : ∀ i, file.node = some i → i.val < s.count ∧ opened = some (s.nodes i)) :
    Attached { s.setFile f file with opened := update s.opened f opened } := by
  intro g i pointing
  change (update s.files f file g).node = some i at pointing
  change i.val < s.count ∧ update s.opened f opened g = some (s.nodes i)
  by_cases same : g = f
  · subst same
    rw [update_self] at pointing ⊢
    exact new i pointing
  · rw [update_of_ne same] at pointing ⊢
    exact attached g i pointing

theorem Attached.transfer (attached : Attached s) (mode : BitVec 32)
    (choose : DevfsNode → BitVec 64 → Option Invocation) (f : Nat) (reply : Reply) :
    Attached (transfer mode choose f reply s).2 := by
  unfold Drivers.transfer
  split
  · exact attached
  · next i pointing =>
      split
      · exact attached
      · split
        · exact attached
        · split
          · have moved := attached.setFile f { s.files f with pos := (s.files f).pos + reply.moved } (s.opened f)
              (attached f)
            rwa [update_eq_self] at moved
          · exact attached

theorem Attached.register (attached : Attached s) {dev : Nat} {ops : DevfsOps} {ok : Bool}
    (returned : flDevfsRegister path dev ops s = some (ok, s')) : Attached s' := by
  unfold flDevfsRegister at returned
  split at returned
  · cases returned
    exact attached
  · split at returned
    · next room =>
      split at returned
      · cases returned
        exact attached
      · split at returned
        · cases returned
          exact attached
        · -- the new node comes to a place that no file points to
          cases returned
          intro f i pointing
          obtain ⟨inside, opened⟩ := attached f i pointing
          have other : i ≠ ⟨s.count, room⟩ := fun same => ne_of_lt inside (congrArg Fin.val same)
          have kept := update_of_ne other (DevfsNode.mk path dev ops s.serial) s.nodes
          exact ⟨Nat.lt_succ_of_lt inside, opened.trans (congrArg some kept.symm)⟩
    · cases returned

theorem Attached.unregister (attached : Attached s) (quiet : QuietCall s (.unregister path)) :
    Attached (flDevfsUnregister path s) := by
  unfold flDevfsUnregister
  split
  · exact attached
  · next i found =>
      intro f j pointing
      obtain ⟨inside, opened⟩ := attached f j pointing
      obtain ⟨notHere, notLast⟩ := quiet i found f
      have other : j ≠ i := fun same => notHere (same ▸ pointing)
      have below : j.val ≠ s.count - 1 := fun same => notLast (pointing.trans (congrArg some (Fin.ext same)))
      have kept := update_of_ne other (s.nodes (s.last i)) s.nodes
      exact ⟨lt_of_le_of_ne (Nat.le_sub_one_of_lt inside) below, opened.trans (congrArg some kept.symm)⟩

theorem Attached.opens (attached : Attached s) (path : Text) (flags : BitVec 32) (f : Nat) :
    Attached (flDevfsOpen path flags f s).2 := by
  unfold flDevfsOpen
  split
  · exact attached
  · next i found =>
      refine attached.setFile f ⟨some i, 0, flags⟩ (some (s.nodes i)) fun j pointing => ?_
      obtain rfl := some.inj pointing
      exact ⟨(find_spec found).1, rfl⟩

theorem Attached.call (attached : Attached s) {call : DevfsCall} (quiet : QuietCall s call)
    (returned : call.run s = some s') : Attached s' := by
  cases call with
  | register path dev ops =>
    obtain ⟨⟨ok, _⟩, registered, rfl⟩ := map_eq_some_iff.mp returned
    exact attached.register registered
  | unregister path => exact some.inj returned ▸ attached.unregister quiet
  | opens path flags f => exact some.inj returned ▸ attached.opens path flags f
  | read f reply => exact some.inj returned ▸ attached.transfer 1 readOp f reply
  | write f reply => exact some.inj returned ▸ attached.transfer 2 writeOp f reply
  | ioctl f =>
    cases returned
    unfold flDevfsIoctl
    split <;> exact attached
  | close f => exact some.inj returned ▸ attached.setFile f ⟨none, 0, 0⟩ none nofun

theorem flDevfsOpen_opened {flags : BitVec 32} (opened : flDevfsOpen path flags f s = (true, s')) :
    ∃ node, s'.opened f = some node ∧ node.path = path ∧ s.Registered node := by
  unfold flDevfsOpen at opened
  split at opened
  · cases opened
  · next i found =>
      cases opened
      exact ⟨s.nodes i, update_self .., (find_spec found).2, i, (find_spec found).1, rfl⟩

/-- If no node is unregistered under an open file, a file goes on to the node that had the path when it was opened. -/
theorem devfs_stays_bound {s : Devfs} (reached : DevfsReaches QuietCall s) : (∀ f, StaysBound s f) ∧
      ∀ path flags f s', flDevfsOpen path flags f s = (true, s') →
        ∃ node, s'.opened f = some node ∧ node.path = path ∧ s.Registered node := by
  have attached : Attached s :=
    reached.invariant (fun f i pointing => nomatch pointing) fun _ _ _ attached quiet returned =>
      attached.call quiet returned
  exact ⟨attached.staysBound, fun path flags f s' opened => flDevfsOpen_opened opened⟩

def readable (function : Nat) : DevfsOps := ⟨none, none, some function, none, none⟩

def twoDevices : List DevfsCall := [.register ['a'] 10 (readable 1), .register ['b'] 20 (readable 2), .opens ['a'] 1 0]

def firstOpened : Devfs where
  nodes := update (update Devfs.empty.nodes ⟨0, by decide⟩ ⟨['a'], 10, readable 1, 0⟩)
    ⟨1, by decide⟩ ⟨['b'], 20, readable 2, 1⟩
  count := 2
  bounded := by decide
  files := update Devfs.empty.files 0 ⟨some ⟨0, by decide⟩, 0, 1⟩
  serial := 2
  opened := update Devfs.empty.opened 0 (some ⟨['a'], 10, readable 1, 0⟩)

theorem twoDevices_reach {allowed : Devfs → DevfsCall → Prop} (ok : ∀ call ∈ twoDevices, ∀ s, allowed s call) :
    DevfsReaches allowed firstOpened :=
  Reached.start.runCalls twoDevices (fun call member s _ returned => ⟨ok call member s, returned⟩) rfl

theorem devfs_last_unregistered : DevfsReaches QuietCall (flDevfsUnregister ['b'] firstOpened) ∧
      (flDevfsRead 0 ⟨0, 1⟩ (flDevfsUnregister ['b'] firstOpened)).1 = some ⟨1, 10, none⟩ ∧
      StaysBound (flDevfsUnregister ['b'] firstOpened) 0 := by
  have quiet : QuietCall firstOpened (.unregister ['b']) := by
    intro i found f
    obtain rfl : (⟨1, by decide⟩ : Place) = i := some.inj found
    by_cases first : f = 0
    · subst first
      decide
    · have closed : (firstOpened.files f).node = none :=
        congrArg DevfsFile.node (update_of_ne first _ Devfs.empty.files)
      simp [closed]
  have reached : DevfsReaches QuietCall (flDevfsUnregister ['b'] firstOpened) :=
    (twoDevices_reach (by simp [twoDevices, QuietCall])).call _ quiet rfl
  exact ⟨reached, by decide, (devfs_stays_bound reached).1 0⟩

theorem devfs_read_reaches_other : DevfsReaches (fun _ _ => True) (flDevfsUnregister ['a'] firstOpened) ∧
      (flDevfsRead 0 ⟨0, 1⟩ (flDevfsUnregister ['a'] firstOpened)).1 = some ⟨2, 20, none⟩ ∧
      ¬ StaysBound (flDevfsUnregister ['a'] firstOpened) 0 := by
  have read : (flDevfsRead 0 ⟨0, 1⟩ (flDevfsUnregister ['a'] firstOpened)).1 = some ⟨2, 20, none⟩ := by decide
  refine ⟨(twoDevices_reach fun _ _ _ => trivial).call (.unregister ['a']) trivial rfl, read, fun bound => ?_⟩
  obtain ⟨node, opened, _, called⟩ := bound.read _ _ read
  obtain rfl : (⟨['a'], 10, readable 1, 0⟩ : DevfsNode) = node := some.inj opened
  exact absurd called (by decide)

end Flinstone.Drivers
