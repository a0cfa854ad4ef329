import Flinstone.Sys.Stops

/-!
# The handle table and the objects it owns

System calls of a single thread, from `fl_sys_bootstrap` on.
-/

namespace Flinstone.Sys
open Flinstone.Lib Flinstone.Vm List Function

variable {n : Nat} {W : Type}

structure Call where
  no : Word
  a0 : Size
  a1 : Size
  a2 : Size
  a3 : Size

namespace Call

def dispatch (env : Env W) (call : Call) (c : Caller n W) : Except Stop (Size × Caller n W) :=
  flSyscallDispatch env call.no call.a0 call.a1 call.a2 call.a3 c

def creates (call : Call) : Bool :=
  match flSyscallNo call.no with
  | some .pipeCreate | some .msgqCreate => true
  | _ => false

def accepts (call : Call) : List VrtType :=
  match flSyscallNo call.no with
  | some .pipeRead | some .pipeWrite => [.pipe]
  | some .msgqSend | some .msgqRecv => [.msgq]
  | some .close => [.pipe, .msgq]
  | _ => []

def destroys (env : Env W) (call : Call) (c : Caller n W) : List Nat :=
  match flSyscallNo call.no with
  | some .pipeCreate =>
    match pipeCreate env call.a0 c.world with
    | (some p, _) => if (vrtAlloc (c.sys.allocate (.pipe p)).2 .pipe c.sys.nextObject).isNone then
        [c.sys.nextObject] else []
    | (none, _) => []
  | some .msgqCreate =>
    match msgqCreate env call.a0 call.a1 c.world with
    | (some q, _) => if (vrtAlloc (c.sys.allocate (.msgq q)).2 .msgq c.sys.nextObject).isNone then
        [c.sys.nextObject] else []
    | (none, _) => []
  | some .close =>
    match vrtGet c.sys call.a0 with
    | some (.pipe, id) | some (.msgq, id) => [id]
    | _ => []
  | _ => []

end Call

structure CallRecord where
  call : Call
  ret : Size
  destroyed : List Nat

structure Session (n : Nat) (W : Type) where
  caller : Caller n W
  log : List CallRecord

namespace Session

def start (boot : Caller n W) : Session n W := ⟨{ boot with sys := flSysBootstrap boot.sys }, []⟩

def step (env : Env W) (s : Session n W) (call : Call) : Except Stop (Session n W) := do
  let (ret, caller) ← call.dispatch env s.caller
  return ⟨caller, s.log ++ [⟨call, ret, call.destroys env s.caller⟩]⟩

def run (env : Env W) (s : Session n W) (calls : List Call) : Except Stop (Session n W) := calls.foldlM (step env) s

end Session

/-! ## What was issued and not closed -/

abbrev Handles := Size → Option VrtType

def Handles.record (handles : Handles) (call : Call) (ret : Size) : Handles :=
  match flSyscallNo call.no with
  | some .pipeCreate => if ret = -1 then handles else update handles ret (some .pipe)
  | some .msgqCreate => if ret = -1 then handles else update handles ret (some .msgq)
  | some .close => if ret = 0 then update handles call.a0 none else handles
  | _ => handles

def opened (log : List CallRecord) : Handles :=
  log.foldl (fun handles entry => handles.record entry.call entry.ret) fun _ => none

def destroyed (log : List CallRecord) : List Nat := log.flatMap CallRecord.destroyed

def Object.type : Object → VrtType
  | .pipe _ => .pipe
  | .msgq _ => .msgq

structure Vrt.OneToOne (first : Nat) (sys : Vrt) : Prop where
  entered : ∀ id ≥ first, ∀ object, sys.objects id = some object → ∃ h, sys.table h = ⟨object.type, some id⟩
  owned : ∀ h id, (sys.table h).resource = some id →
    first ≤ id ∧ ∃ object, sys.objects id = some object ∧ object.type = (sys.table h).type
  unique : ∀ h h' id, (sys.table h).resource = some id → (sys.table h').resource = some id → h = h'

structure Call.Contract (env : Env W) (handles : Handles) (c : Caller n W) (call : Call) : Prop where
  created : call.creates = true → ∀ ret c', call.dispatch env c = .ok (ret, c') → ret ≠ -1 ∧ handles ret = none ∨
      ret = -1 ∧ c'.sys.table = c.sys.table ∧ c'.sys.objects = c.sys.objects
  refused : call.accepts ≠ [] → (∀ type ∈ call.accepts, handles call.a0 ≠ some type) → call.dispatch env c = .ok (-1, c)
  closed : flSyscallNo call.no = some .close → ∀ type id, vrtGet c.sys call.a0 = some (type, id) →
    ∀ ret c', call.dispatch env c = .ok (ret, c') →
      ret = 0 ∧ (c.sys.objects id).isSome ∧ c'.sys.objects = update c.sys.objects id none ∧
        ∀ h, c'.sys.table h = if BitVec.ofNat 64 h = call.a0 then .zero else c.sys.table h
  kept : flSyscallNo call.no ≠ some .close → ∀ ret c', call.dispatch env c = .ok (ret, c') →
    ∀ id, (c.sys.objects id).isSome → (c'.sys.objects id).isSome

def Vrt.setEntry (sys : Vrt) (k : Fin 256) (entry : VrtEntry) : Vrt :=
  { sys with table := update sys.table k entry }

namespace Vrt
variable (sys : Vrt) (k : Fin 256) (entry : VrtEntry) (id : Nat) (stored : Option Object) (object : Object)

@[simp] theorem setEntry_table : (sys.setEntry k entry).table = update sys.table k entry := rfl
@[simp] theorem setEntry_objects : (sys.setEntry k entry).objects = sys.objects := rfl
@[simp] theorem setEntry_nextObject : (sys.setEntry k entry).nextObject = sys.nextObject := rfl
@[simp] theorem store_table : (sys.store id stored).table = sys.table := rfl
@[simp] theorem store_objects : (sys.store id stored).objects = update sys.objects id stored := rfl
@[simp] theorem store_nextObject : (sys.store id stored).nextObject = sys.nextObject := rfl
@[simp] theorem allocate_id : (sys.allocate object).1 = sys.nextObject := rfl
@[simp] theorem allocate_table : (sys.allocate object).2.table = sys.table := rfl
@[simp] theorem allocate_objects :
    (sys.allocate object).2.objects = update sys.objects sys.nextObject (some object) := rfl
@[simp] theorem allocate_nextObject : (sys.allocate object).2.nextObject = sys.nextObject + 1 := rfl

theorem discard_objects (unused : sys.objects sys.nextObject = none) :
    ((sys.allocate object).2.store sys.nextObject none).objects = sys.objects := by
  funext id
  simp only [store_objects, allocate_objects, update_apply]
  split
  · next here => rw [here, unused]
  · rfl

end Vrt

section
variable {sys : Vrt} {h : Size} {k : Fin 256}

theorem toNat_handle (k : Fin 256) : (BitVec.ofNat 64 k : Size).toNat = k.val := by
  rw [BitVec.toNat_ofNat, Nat.mod_eq_of_lt (by omega)]

theorem handle_injective {k k' : Fin 256} (same : (BitVec.ofNat 64 k : Size) = BitVec.ofNat 64 k') : k = k' := by
  have values := congrArg BitVec.toNat same
  rw [toNat_handle, toNat_handle] at values
  exact Fin.ext values

theorem handle_ne_invalid (k : Fin 256) : (BitVec.ofNat 64 k : Size) ≠ -1 := by
  intro same
  have values := congrArg BitVec.toNat same
  simp at values
  omega

theorem eq_handle (inRange : h.toNat < 256) : h = BitVec.ofNat 64 (⟨h.toNat, inRange⟩ : Fin 256) := by
  simp

theorem vrtGet_handle (sys : Vrt) (k : Fin 256) :
    vrtGet sys (BitVec.ofNat 64 k) = (sys.table k).resource.map ((sys.table k).type, ·) := by
  have inRange : (BitVec.ofNat 64 k : Size).toNat < 256 := by
    rw [toNat_handle]
    exact k.isLt
  have here : (⟨(BitVec.ofNat 64 k : Size).toNat, inRange⟩ : Fin 256) = k := Fin.ext (toNat_handle k)
  rw [vrtGet, dif_pos inRange, here]

theorem vrtGet_outside (outside : ¬ h.toNat < 256) : vrtGet sys h = none := dif_neg outside

theorem vrtGet_eq_some {type : VrtType} {id : Nat} : vrtGet sys h = some (type, id) ↔
      ∃ k : Fin 256, h = BitVec.ofNat 64 k ∧ (sys.table k).type = type ∧ (sys.table k).resource = some id := by
  constructor
  · intro found
    by_cases inRange : h.toNat < 256
    · refine ⟨⟨h.toNat, inRange⟩, eq_handle inRange, ?_⟩
      rw [eq_handle inRange, vrtGet_handle] at found
      simpa [and_comm] using found
    · rw [vrtGet_outside inRange] at found
      cases found
  · rintro ⟨k, rfl, rfl, resource⟩
    rw [vrtGet_handle, resource]
    rfl

theorem vrtFree_handle (sys : Vrt) (k : Fin 256) : vrtFree sys (BitVec.ofNat 64 k) = sys.setEntry k .zero := by
  have inRange : (BitVec.ofNat 64 k : Size).toNat < 256 := by
    rw [toNat_handle]
    exact k.isLt
  have here : (⟨(BitVec.ofNat 64 k : Size).toNat, inRange⟩ : Fin 256) = k := Fin.ext (toNat_handle k)
  rw [vrtFree, dif_pos inRange, here, Vrt.setEntry]

theorem vrtAlloc_eq_some {type : VrtType} {resource : Nat} {sys' : Vrt}
    (found : vrtAlloc sys type resource = some (k, sys')) :
    (sys.table k).resource = none ∧ sys' = sys.setEntry k ⟨type, some resource⟩ := by
  unfold vrtAlloc at found
  split at found
  · cases found
  · obtain ⟨i, first, same⟩ := Option.map_eq_some_iff.mp found
    cases same
    exact ⟨by simpa using find?_some first, rfl⟩

theorem Vrt.handle_eq_some {type : VrtType} {id : Nat} :
    sys.handle type h = some id ↔ vrtGet sys h = some (type, id) := by
  unfold handle
  cases vrtGet sys h with
  | none => simp
  | some entry =>
    obtain ⟨found, id'⟩ := entry
    by_cases right : found = type <;> simp

end

inductive Vrt.Effect (sys : Vrt) (call : Call) : Size → Vrt → List Nat → Prop
  | nothing (ret : Size) (failed : call.creates = true → ret = -1)
      (silent : ∀ handles : Handles, handles.record call ret = handles) : Effect sys call ret sys []
  | used (ret : Size) (id : Nat) (object object' : Object) (found : sys.objects id = some object)
      (same : object'.type = object.type) (plain : call.creates = false)
      (silent : ∀ handles : Handles, handles.record call ret = handles) :
      Effect sys call ret (sys.store id (some object')) []
  | discarded (object : Object) (silent : ∀ handles : Handles, handles.record call (-1) = handles) :
      Effect sys call (-1) ((sys.allocate object).2.store sys.nextObject none) [sys.nextObject]
  | created (object : Object) (k : Fin 256) (unused : (sys.table k).resource = none)
      (issued : ∀ handles : Handles, handles.record call (BitVec.ofNat 64 k) =
        update handles (BitVec.ofNat 64 k) (some object.type)) :
      Effect sys call (BitVec.ofNat 64 k) ((sys.allocate object).2.setEntry k ⟨object.type, some sys.nextObject⟩) []
  | closed (k : Fin 256) (id : Nat) (entry : (sys.table k).resource = some id)
      (close : flSyscallNo call.no = some .close) (mine : call.a0 = BitVec.ofNat 64 k) :
      Effect sys call 0 ((sys.store id none).setEntry k .zero) [id]

section
variable {env : Env W} {c c' : Caller n W} {ret : Size} {call : Call}

theorem enter_effect (object : Object) {destroy : Except Stop Unit} {world : W}
    (records : ∀ (handles : Handles) (ret : Size), handles.record call ret =
      if ret = -1 then handles else update handles ret (some object.type))
    (returned : (match vrtAlloc (c.sys.allocate object).2 object.type c.sys.nextObject with
      | some (h, sys) => .ok (BitVec.ofNat 64 h, { c with sys, world })
      | none => do
          destroy
          return (-1, { c with sys := (c.sys.allocate object).2.store c.sys.nextObject none, world })) =
        Except.ok (ret, c')) :
    c.sys.Effect call ret c'.sys
      (if (vrtAlloc (c.sys.allocate object).2 object.type c.sys.nextObject).isNone then [c.sys.nextObject]
        else []) := by
  cases found : vrtAlloc (c.sys.allocate object).2 object.type c.sys.nextObject with
  | none =>
    rw [found] at returned
    obtain ⟨-, -, done⟩ := bind_eq_ok.mp returned
    cases done
    exact .discarded object fun handles => (records handles (-1)).trans (if_pos rfl)
  | some entry =>
    obtain ⟨k, sys'⟩ := entry
    rw [found] at returned
    obtain ⟨unused, rfl⟩ := vrtAlloc_eq_some found
    cases returned
    exact .created object k unused fun handles => (records handles _).trans (if_neg (handle_ne_invalid k))

theorem sysPipeCreate_effect (create : flSyscallNo call.no = some .pipeCreate)
    (returned : sysPipeCreate env call.a0 c = .ok (ret, c')) :
    c.sys.Effect call ret c'.sys (call.destroys env c) := by
  have records (handles : Handles) (ret : Size) : handles.record call ret =
      if ret = -1 then handles else update handles ret (some .pipe) := by
    simp only [Handles.record, create]
  unfold sysPipeCreate at returned
  simp only [Call.destroys, create]
  split at returned
  · next world failed =>
      cases returned
      rw [failed]
      exact .nothing _ (fun _ => rfl) fun handles => (records handles (-1)).trans (if_pos rfl)
  · next p world made =>
      rw [made]
      exact enter_effect (.pipe p) records returned

theorem sysMsgqCreate_effect (create : flSyscallNo call.no = some .msgqCreate)
    (returned : sysMsgqCreate env call.a0 call.a1 c = .ok (ret, c')) :
    c.sys.Effect call ret c'.sys (call.destroys env c) := by
  have records (handles : Handles) (ret : Size) : handles.record call ret =
      if ret = -1 then handles else update handles ret (some .msgq) := by
    simp only [Handles.record, create]
  unfold sysMsgqCreate at returned
  simp only [Call.destroys, create]
  split at returned
  · next world failed =>
      cases returned
      rw [failed]
      exact .nothing _ (fun _ => rfl) fun handles => (records handles (-1)).trans (if_pos rfl)
  · next q world made =>
      rw [made]
      exact enter_effect (.msgq q) records returned

variable {sys : Vrt} {id : Nat}

theorem pipeAt_eq_ok {p : Pipe} : sys.pipeAt id = .ok p ↔ sys.objects id = some (.pipe p) := by
  unfold Vrt.pipeAt
  split
  · next p' found => simp [found]
  · next missing => exact iff_of_false nofun (missing p)

theorem msgqAt_eq_ok {q : Msgq} : sys.msgqAt id = .ok q ↔ sys.objects id = some (.msgq q) := by
  unfold Vrt.msgqAt
  split
  · next q' found => simp [found]
  · next missing => exact iff_of_false nofun (missing q)

def Vrt.Uses (sys sys' : Vrt) : Prop :=
  sys' = sys ∨ ∃ id object object', sys.objects id = some object ∧ object'.type = object.type ∧
    sys' = sys.store id (some object')

theorem Vrt.Uses.effect {sys' : Vrt} (uses : sys.Uses sys') (plain : call.creates = false)
    (silent : ∀ handles : Handles, handles.record call ret = handles) : sys.Effect call ret sys' [] := by
  rcases uses with rfl | ⟨id, object, object', found, same, rfl⟩
  · exact .nothing ret (by simp [plain]) silent
  · exact .used ret id object object' found same plain silent

section
variable {h buf timeoutMs : Size} {count : Nat}

theorem uses_of_handle {type : VrtType} {use : Nat → Except Stop (Size × Caller n W)}
    (rest : ∀ id, use id = .ok (ret, c') → c.sys.Uses c'.sys)
    (returned : (match c.sys.handle type h with
      | some id => if buf = 0 ∨ count = 0 then .ok (-1, c) else use id
      | none => .ok (-1, c)) = Except.ok (ret, c')) : c.sys.Uses c'.sys := by
  split at returned
  · split at returned
    · cases returned
      exact .inl rfl
    · exact rest _ returned
  · cases returned
    exact .inl rfl

theorem sysPipeRead_uses (returned : sysPipeRead env h buf count c = .ok (ret, c')) : c.sys.Uses c'.sys := by
  refine uses_of_handle (fun id returned => ?_) returned
  obtain ⟨p, found, returned⟩ := bind_eq_ok.mp returned
  obtain ⟨⟨result, p', world⟩, -, returned⟩ := bind_eq_ok.mp returned
  have uses : c.sys.Uses (c.sys.store id (some (.pipe p'))) :=
    .inr ⟨id, .pipe p, .pipe p', pipeAt_eq_ok.mp found, rfl, rfl⟩
  cases result with
  | none =>
    cases returned
    exact uses
  | some bytes =>
    obtain ⟨mem, -, returned⟩ := bind_eq_ok.mp returned
    cases returned
    exact uses

theorem sysPipeWrite_uses (returned : sysPipeWrite h buf count c = .ok (ret, c')) : c.sys.Uses c'.sys := by
  refine uses_of_handle (fun id returned => ?_) returned
  obtain ⟨p, found, returned⟩ := bind_eq_ok.mp returned
  obtain ⟨⟨written, p'⟩, -, returned⟩ := bind_eq_ok.mp returned
  cases returned
  exact .inr ⟨id, .pipe p, .pipe p', pipeAt_eq_ok.mp found, rfl, rfl⟩

theorem sysMsgqSend_uses (returned : sysMsgqSend h buf count c = .ok (ret, c')) : c.sys.Uses c'.sys := by
  refine uses_of_handle (fun id returned => ?_) returned
  obtain ⟨q, found, returned⟩ := bind_eq_ok.mp returned
  obtain ⟨⟨sent, q'⟩, -, returned⟩ := bind_eq_ok.mp returned
  cases returned
  exact .inr ⟨id, .msgq q, .msgq q', msgqAt_eq_ok.mp found, rfl, rfl⟩

theorem sysMsgqRecv_uses (returned : sysMsgqRecv env h buf count timeoutMs c = .ok (ret, c')) : c.sys.Uses c'.sys := by
  refine uses_of_handle (fun id returned => ?_) returned
  obtain ⟨q, found, returned⟩ := bind_eq_ok.mp returned
  obtain ⟨⟨result, q', world⟩, -, returned⟩ := bind_eq_ok.mp returned
  have uses : c.sys.Uses (c.sys.store id (some (.msgq q'))) :=
    .inr ⟨id, .msgq q, .msgq q', msgqAt_eq_ok.mp found, rfl, rfl⟩
  cases result with
  | none =>
    cases returned
    exact uses
  | some bytes =>
    obtain ⟨mem, -, returned⟩ := bind_eq_ok.mp returned
    cases returned
    exact uses

theorem sysWrite_keeps (returned : sysWrite env buf count c = .ok (ret, c')) : c'.sys = c.sys := by
  unfold sysWrite at returned
  split at returned
  · cases returned
    rfl
  · obtain ⟨bytes, -, returned⟩ := bind_eq_ok.mp returned
    cases returned
    rfl

theorem sysRead_keeps (returned : sysRead env buf count c = .ok (ret, c')) : c'.sys = c.sys := by
  unfold sysRead at returned
  split at returned
  · cases returned
    rfl
  split at returned
  · cases returned
    rfl
  · obtain ⟨mem, -, returned⟩ := bind_eq_ok.mp returned
    cases returned
    rfl

end

theorem sysClose_effect (close : flSyscallNo call.no = some .close) (returned : sysClose call.a0 c = .ok (ret, c')) :
    c.sys.Effect call ret c'.sys (call.destroys env c) := by
  have ends {type : VrtType} {id : Nat} (entry : vrtGet c.sys call.a0 = some (type, id)) :
      c.sys.Effect call 0 (vrtFree (c.sys.store id none) call.a0) [id] := by
    obtain ⟨k, mine, -, resource⟩ := vrtGet_eq_some.mp entry
    rw [mine, vrtFree_handle]
    exact .closed k id resource close mine
  have nothing : c.sys.Effect call (-1) c.sys [] :=
    .nothing _ (fun _ => rfl) fun handles => by simp [Handles.record, close]
  unfold sysClose at returned
  simp only [Call.destroys, close]
  rcases entry : vrtGet c.sys call.a0 with _ | ⟨type, id⟩
  · simp only [entry] at returned ⊢
    cases returned
    exact nothing
  · cases type with
    | pipe =>
      simp only [entry] at returned ⊢
      obtain ⟨p, -, returned⟩ := bind_eq_ok.mp returned
      obtain ⟨-, -, done⟩ := bind_eq_ok.mp returned
      cases done
      exact ends entry
    | msgq =>
      simp only [entry] at returned ⊢
      obtain ⟨q, -, returned⟩ := bind_eq_ok.mp returned
      obtain ⟨-, -, done⟩ := bind_eq_ok.mp returned
      cases done
      exact ends entry
    | file | dir | block | buffer =>
      simp only [entry] at returned ⊢
      cases returned
      exact nothing

theorem Call.effect (returned : call.dispatch env c = .ok (ret, c')) :
    c.sys.Effect call ret c'.sys (call.destroys env c) := by
  unfold dispatch flSyscallDispatch at returned
  cases no : flSyscallNo call.no with
  | none =>
    simp only [no] at returned
    cases returned
    simp only [destroys, no]
    exact .nothing _ (fun _ => rfl) fun handles => by simp only [Handles.record, no]
  | some called =>
    have plain (uses : c.sys.Uses c'.sys) (other : called ≠ .pipeCreate ∧ called ≠ .msgqCreate ∧ called ≠ .close) :
        c.sys.Effect call ret c'.sys (call.destroys env c) := by
      have none : call.destroys env c = [] := by
        unfold destroys
        cases called <;> simp_all
      rw [none]
      refine uses.effect ?_ fun handles => ?_
      · unfold creates
        cases called <;> simp_all
      · unfold Handles.record
        cases called <;> simp_all
    simp only [no] at returned
    cases called with
    | pipeCreate => exact sysPipeCreate_effect no returned
    | msgqCreate => exact sysMsgqCreate_effect no returned
    | close => exact sysClose_effect no returned
    | write => exact plain (.inl (sysWrite_keeps returned)) (by decide)
    | read => exact plain (.inl (sysRead_keeps returned)) (by decide)
    | pipeRead => exact plain (sysPipeRead_uses returned) (by decide)
    | pipeWrite => exact plain (sysPipeWrite_uses returned) (by decide)
    | msgqSend => exact plain (sysMsgqSend_uses returned) (by decide)
    | msgqRecv => exact plain (sysMsgqRecv_uses returned) (by decide)

end

/-! ## Every session -/

section
variable {log : List CallRecord} {call : Call} {ret : Size} {ids : List Nat}

theorem opened_append : opened (log ++ [⟨call, ret, ids⟩]) = (opened log).record call ret := by
  simp [opened]

theorem destroyed_append : destroyed (log ++ [⟨call, ret, ids⟩]) = destroyed log ++ ids := by
  simp [destroyed]

end

structure Vrt.Ledger (first : Nat) (sys : Vrt) (log : List CallRecord) : Prop where
  oneToOne : sys.OneToOne first
  agrees : ∀ h, (vrtGet sys h).map Prod.fst = opened log h
  later : first ≤ sys.nextObject
  fresh : ∀ id ≥ sys.nextObject, sys.objects id = none
  gone : ∀ id ∈ destroyed log, id < sys.nextObject ∧ sys.objects id = none
  once : (destroyed log).Nodup

namespace Vrt.Ledger
variable {first : Nat} {sys sys' : Vrt} {log : List CallRecord} {call : Call} {ret : Size}

theorem discard (ledger : sys.Ledger first log) (object : Object) :
    ((sys.allocate object).2.store sys.nextObject none).objects = sys.objects :=
  sys.discard_objects object (ledger.fresh sys.nextObject le_rfl)

theorem map_vrtGet_update (sys : Vrt) (k : Fin 256) (entry : VrtEntry) (h : Size) :
    (vrtGet (sys.setEntry k entry) h).map Prod.fst =
      if h = BitVec.ofNat 64 k then entry.resource.map fun _ => entry.type
      else (vrtGet sys h).map Prod.fst := by
  by_cases inRange : h.toNat < 256
  · rw [eq_handle inRange, vrtGet_handle, vrtGet_handle]
    generalize (⟨h.toNat, inRange⟩ : Fin 256) = j
    by_cases same : j = k
    · subst same
      simp [comp_def]
    · rw [if_neg (fun equal => same (handle_injective equal))]
      simp [update_of_ne same]
  · rw [vrtGet_outside inRange, vrtGet_outside inRange, if_neg]
    intro here
    rw [here, toNat_handle] at inRange
    exact inRange k.isLt

theorem used (ledger : sys.Ledger first log) {id : Nat} {object object' : Object}
    (found : sys.objects id = some object) (same : object'.type = object.type)
    (silent : ∀ handles : Handles, handles.record call ret = handles) :
    (sys.store id (some object')).Ledger first (log ++ [⟨call, ret, []⟩]) := by
  have live (id' : Nat) (now : Object) (there : (sys.store id (some object')).objects id' = some now) :
      ∃ before, sys.objects id' = some before ∧ before.type = now.type := by
    simp only [store, update_apply] at there
    split at there
    · next here =>
        cases there
        exact ⟨object, here ▸ found, same.symm⟩
    · exact ⟨now, there, rfl⟩
  have dead (id' : Nat) (none : sys.objects id' = none) : (sys.store id (some object')).objects id' = .none := by
    have different : id' ≠ id := by
      rintro rfl
      rw [none] at found
      cases found
    simp [store, update_of_ne different, none]
  refine ⟨⟨fun id' late now there => ?_, fun h id' entry => ?_, ledger.oneToOne.unique⟩, fun h => ?_,
    ledger.later, fun id' late => dead id' (ledger.fresh id' late), fun id' member => ?_, ?_⟩
  · obtain ⟨before, there, type⟩ := live id' now there
    rw [← type]
    exact ledger.oneToOne.entered id' late before there
  · obtain ⟨late, before, there, type⟩ := ledger.oneToOne.owned h id' entry
    refine ⟨late, ?_⟩
    by_cases here : id' = id
    · subst here
      rw [found] at there
      cases there
      exact ⟨object', by simp, same.trans type⟩
    · exact ⟨before, by simp [store, update_of_ne here, there], type⟩
  · rw [opened_append, silent]
    exact ledger.agrees h
  · rw [destroyed_append, append_nil] at member
    exact ⟨(ledger.gone id' member).1, dead id' (ledger.gone id' member).2⟩
  · rw [destroyed_append, append_nil]
    exact ledger.once

theorem discarded (ledger : sys.Ledger first log) (object : Object)
    (silent : ∀ handles : Handles, handles.record call (-1) = handles) :
    ((sys.allocate object).2.store sys.nextObject none).Ledger first (log ++ [⟨call, -1, [sys.nextObject]⟩]) := by
  have same := ledger.discard object
  refine ⟨⟨?_, ?_, ledger.oneToOne.unique⟩, fun h => ?_, Nat.le_succ_of_le ledger.later, fun id late => ?_,
    fun id member => ?_, ?_⟩
  · rw [same]
    exact ledger.oneToOne.entered
  · rw [same]
    exact ledger.oneToOne.owned
  · rw [opened_append, silent]
    exact ledger.agrees h
  · rw [same]
    exact ledger.fresh id (Nat.le_of_succ_le late)
  · rw [same]
    rw [destroyed_append, mem_append, mem_singleton] at member
    rcases member with before | rfl
    · exact ⟨Nat.lt_succ_of_lt (ledger.gone id before).1, (ledger.gone id before).2⟩
    · exact ⟨Nat.lt_succ_self _, ledger.fresh _ le_rfl⟩
  · rw [destroyed_append, nodup_append]
    refine ⟨ledger.once, nodup_singleton _, fun id before other new => ?_⟩
    rw [mem_singleton] at new
    rintro rfl
    exact absurd (ledger.gone id before).1 (by omega)

theorem created (ledger : sys.Ledger first log) (object : Object) {k : Fin 256} (unused : (sys.table k).resource = none)
    (issued : ∀ handles : Handles, handles.record call (BitVec.ofNat 64 k) =
      update handles (BitVec.ofNat 64 k) (some object.type)) :
    ((sys.allocate object).2.setEntry k ⟨object.type, some sys.nextObject⟩).Ledger first
      (log ++ [⟨call, BitVec.ofNat 64 k, []⟩]) := by
  have known {h : Fin 256} {id : Nat} (entry : (sys.table h).resource = some id) : id < sys.nextObject := by
    obtain ⟨-, object, there, -⟩ := ledger.oneToOne.owned h id entry
    by_contra late
    rw [ledger.fresh id (by omega)] at there
    cases there
  refine ⟨⟨fun id late now there => ?_, fun h id entry => ?_, fun h h' id entry entry' => ?_⟩, fun h => ?_,
    Nat.le_succ_of_le ledger.later, fun id late => ?_, fun id member => ?_, ?_⟩
  · simp only [setEntry_objects, allocate_objects, update_apply] at there
    split at there
    · next here =>
        cases there
        exact ⟨k, by simp [here]⟩
    · obtain ⟨h, entry⟩ := ledger.oneToOne.entered id late now there
      have different : h ≠ k := by
        rintro rfl
        rw [entry] at unused
        cases unused
      exact ⟨h, by simp [different, entry]⟩
  · simp only [setEntry_table, allocate_table, update_apply] at entry ⊢
    split at entry
    · next here =>
        cases entry
        exact ⟨ledger.later, object, by simp, by rw [if_pos here]⟩
    · next elsewhere =>
        obtain ⟨late, before, there, type⟩ := ledger.oneToOne.owned h id entry
        refine ⟨late, before, ?_, by rw [if_neg elsewhere]; exact type⟩
        simp [(known entry).ne, there]
  · simp only [setEntry_table, allocate_table, update_apply] at entry entry'
    split at entry <;> split at entry'
    · next here here' => rw [here, here']
    · cases entry
      exact absurd (known entry') (lt_irrefl _)
    · cases entry'
      exact absurd (known entry) (lt_irrefl _)
    · exact ledger.oneToOne.unique h h' id entry entry'
  · have updated := map_vrtGet_update (sys.allocate object).2 k ⟨object.type, some sys.nextObject⟩ h
    rw [opened_append, issued, update_apply]
    rw [← ledger.agrees h]
    exact updated
  · have different : id ≠ sys.nextObject := by
      rintro rfl
      exact Nat.not_succ_le_self _ late
    simpa [different] using ledger.fresh id (Nat.le_of_succ_le late)
  · rw [destroyed_append, append_nil] at member
    obtain ⟨early, gone⟩ := ledger.gone id member
    exact ⟨Nat.lt_succ_of_lt early, by simp [early.ne, gone]⟩
  · rw [destroyed_append, append_nil]
    exact ledger.once

theorem closed (ledger : sys.Ledger first log) {k : Fin 256} {id : Nat}
    (entry : (sys.table k).resource = some id) (close : flSyscallNo call.no = some .close)
    (mine : call.a0 = BitVec.ofNat 64 k) :
    ((sys.store id none).setEntry k .zero).Ledger first (log ++ [⟨call, 0, [id]⟩]) := by
  obtain ⟨late, object, found, -⟩ := ledger.oneToOne.owned k id entry
  have elsewhere {h : Fin 256} {id' : Nat} (other : (update sys.table k VrtEntry.zero h).resource = some id') :
      h ≠ k ∧ (sys.table h).resource = some id' ∧ id' ≠ id := by
    have different : h ≠ k := by
      rintro rfl
      rw [update_self] at other
      cases other
    rw [update_of_ne different] at other
    refine ⟨different, other, ?_⟩
    rintro rfl
    exact different (ledger.oneToOne.unique h k id' other entry)
  have clears (id' : Nat) (dead : sys.objects id' = none) :
      ((sys.store id none).setEntry k .zero).objects id' = none := by
    simp [update_apply, dead]
  refine ⟨⟨fun id' later now there => ?_, fun h id' other => ?_, fun h h' id' other other' => ?_⟩, fun h => ?_,
    ledger.later, fun id' late => ?_, fun id' member => ?_, ?_⟩
  · simp only [setEntry_objects, store_objects, update_apply] at there
    split at there
    · cases there
    · next different =>
        obtain ⟨h, there⟩ := ledger.oneToOne.entered id' later now there
        have elsewhere : h ≠ k := by
          rintro rfl
          rw [there] at entry
          exact different (Option.some.inj entry)
        exact ⟨h, by simp [elsewhere, there]⟩
  · obtain ⟨different, resource, other⟩ := elsewhere other
    obtain ⟨late, object, there, type⟩ := ledger.oneToOne.owned h id' resource
    exact ⟨late, object, by simp [other, there], by simp [different, type]⟩
  · exact ledger.oneToOne.unique h h' id' (elsewhere other).2.1 (elsewhere other').2.1
  · have cleared := map_vrtGet_update (sys.store id none) k .zero h
    rw [opened_append, Handles.record, close]
    simp only [if_true]
    rw [mine, update_apply, ← ledger.agrees h]
    exact cleared
  · exact clears id' (ledger.fresh id' late)
  · rw [destroyed_append, mem_append, mem_singleton] at member
    rcases member with before | rfl
    · exact ⟨(ledger.gone id' before).1, clears id' (ledger.gone id' before).2⟩
    · refine ⟨?_, by simp⟩
      by_contra late
      rw [ledger.fresh id' (by simpa using late)] at found
      cases found
  · rw [destroyed_append, nodup_append]
    refine ⟨ledger.once, nodup_singleton _, fun id' before other new => ?_⟩
    rw [mem_singleton] at new
    rintro rfl
    rw [← new, (ledger.gone id' before).2] at found
    cases found

theorem effect (ledger : sys.Ledger first log) {ids : List Nat} (effect : sys.Effect call ret sys' ids) :
    sys'.Ledger first (log ++ [⟨call, ret, ids⟩]) := by
  cases effect with
  | nothing ret _ silent =>
    refine ⟨ledger.oneToOne, fun h => ?_, ledger.later, ledger.fresh, ?_, ?_⟩
    · rw [opened_append, silent]
      exact ledger.agrees h
    · rw [destroyed_append, append_nil]
      exact ledger.gone
    · rw [destroyed_append, append_nil]
      exact ledger.once
  | used ret id object object' found same _ silent => exact ledger.used found same silent
  | discarded object silent => exact ledger.discarded object silent
  | created object k unused issued => exact ledger.created object unused issued
  | closed k id entry close mine => exact ledger.closed entry close mine

end Vrt.Ledger

/-! ## No call finds its object gone -/

def IsDangling (stop : Stop) : Prop := ∃ id, stop = .dangling id

section
variable {env : Env W} {mem : VmMem n} {ptr : Size} {count : Nat}

theorem hostLoad_finds : ¬ StopsWith IsDangling (hostLoad mem ptr count) := by
  unfold hostLoad
  split <;> simp [IsDangling]

theorem hostByte_finds (i : Nat) : ¬ StopsWith IsDangling (hostByte mem ptr i) := by
  unfold hostByte
  split <;> simp [IsDangling]

theorem hostStore_finds (bytes : List Byte) : ¬ StopsWith IsDangling (hostStore mem ptr bytes) := by
  unfold hostStore
  split <;> simp [IsDangling]

theorem pipePut_finds {src : Nat → Except Stop Byte} (readable : ∀ i, ¬ StopsWith IsDangling (src i))
    (p : Pipe) (written count : Nat) : ¬ StopsWith IsDangling (pipePut src p written count) := by
  induction count generalizing p written with
  | zero => exact stopsWith_ok _
  | succ count ih =>
    unfold pipePut
    split
    · split
      · next stop failed =>
          have byte := readable written
          rw [failed] at byte
          simpa using byte
      · exact ih _ _
    · exact stopsWith_ok _

theorem pipeWrite_finds (p : Pipe) : ¬ StopsWith IsDangling (pipeWrite p (hostByte mem ptr) count) := by
  unfold pipeWrite
  split
  · exact stopsWith_ok _
  split
  · exact stopsWith_ok _
  split
  · next stop failed =>
      have put : ¬ StopsWith IsDangling (pipePut (hostByte mem ptr) p 0 count) := pipePut_finds hostByte_finds p 0 count
      rw [failed] at put
      simpa using put
  · exact stopsWith_ok _

theorem pipeRead_finds (p : Pipe) (w : W) : ¬ StopsWith IsDangling (pipeRead env p count w) := by
  unfold pipeRead
  split
  · exact stopsWith_ok _
  dsimp only
  split
  · next stop failed =>
      rw [awaitReadable_eq] at failed
      split at failed
      · cases failed
        simp [IsDangling]
      · cases failed
  · split <;> exact stopsWith_ok _

theorem msgqSend_finds (q : Msgq) : ¬ StopsWith IsDangling (msgqSend q (hostLoad mem ptr count) count) := by
  unfold msgqSend
  split
  · exact stopsWith_ok _
  split
  · exact stopsWith_ok _
  split
  · exact stopsWith_ok _
  split
  · split
    · split
      · next stop failed =>
          have load : ¬ StopsWith IsDangling (hostLoad mem ptr count) := hostLoad_finds
          rw [failed] at load
          simpa using load
      · exact stopsWith_ok _
    · simp [IsDangling]
  · exact stopsWith_ok _

theorem msgqTake_finds (q : Msgq) : ¬ StopsWith IsDangling (msgqTake q count) := by
  unfold msgqTake Msgq.load
  split
  · split
    · next stop failed =>
        dsimp only at failed
        split at failed
        · cases failed
        · cases failed
          simp [IsDangling]
    · exact stopsWith_ok _
  · exact stopsWith_ok _

theorem msgqReceive_finds (q : Msgq) (timeoutMs : Size) (w : W) :
    ¬ StopsWith IsDangling (msgqReceive env q count timeoutMs w) := by
  unfold msgqReceive
  split
  · exact stopsWith_ok _
  split
  · exact stopsWith_ok _
  split
  · exact stopsWith_ok _
  dsimp only
  generalize ite (q.ring.len == 0) _ _ = waited
  split
  · exact stopsWith_ok _
  split
  · next stop failed =>
      have take : ¬ StopsWith IsDangling (msgqTake q count) := msgqTake_finds q
      rw [failed] at take
      simpa using take
  · exact stopsWith_ok _

end

namespace Vrt.OneToOne
variable {first : Nat} {sys : Vrt} {env : Env W} {c : Caller n W}
variable {h buf : Size} {id count : Nat} {α : Type}

theorem pipe (oneToOne : sys.OneToOne first)
    (entry : vrtGet sys h = some (.pipe, id)) : ∃ p, sys.pipeAt id = .ok p := by
  obtain ⟨k, -, type, resource⟩ := vrtGet_eq_some.mp entry
  obtain ⟨-, object, found, same⟩ := oneToOne.owned k id resource
  rw [type] at same
  cases object with
  | pipe p => exact ⟨p, pipeAt_eq_ok.mpr found⟩
  | msgq q => cases same

theorem msgq (oneToOne : sys.OneToOne first)
    (entry : vrtGet sys h = some (.msgq, id)) : ∃ q, sys.msgqAt id = .ok q := by
  obtain ⟨k, -, type, resource⟩ := vrtGet_eq_some.mp entry
  obtain ⟨-, object, found, same⟩ := oneToOne.owned k id resource
  rw [type] at same
  cases object with
  | pipe p => cases same
  | msgq q => exact ⟨q, msgqAt_eq_ok.mpr found⟩

theorem finds_of_handle {type : VrtType} {use : Nat → Except Stop (Size × Caller n W)}
    (rest : ∀ id, vrtGet c.sys h = some (type, id) → ¬ StopsWith IsDangling (use id)) :
    ¬ StopsWith IsDangling (match c.sys.handle type h with
      | some id => if buf = 0 ∨ count = 0 then .ok (-1, c) else use id
      | none => .ok (-1, c)) := by
  split
  · next id found =>
      split
      · exact stopsWith_ok _
      · exact rest id (handle_eq_some.mp found)
  · exact stopsWith_ok _

theorem using_pipe (oneToOne : c.sys.OneToOne first) {use : Nat → Pipe → Except Stop (Size × Caller n W)}
    (rest : ∀ id p, ¬ StopsWith IsDangling (use id p)) :
    ¬ StopsWith IsDangling (match c.sys.handle .pipe h with
      | some id => if buf = 0 ∨ count = 0 then .ok (-1, c) else c.sys.pipeAt id >>= use id
      | none => .ok (-1, c)) := by
  refine finds_of_handle fun id entry => ?_
  obtain ⟨p, at_⟩ := oneToOne.pipe entry
  rw [at_]
  exact rest id p

theorem using_msgq (oneToOne : c.sys.OneToOne first) {use : Nat → Msgq → Except Stop (Size × Caller n W)}
    (rest : ∀ id q, ¬ StopsWith IsDangling (use id q)) :
    ¬ StopsWith IsDangling (match c.sys.handle .msgq h with
      | some id => if buf = 0 ∨ count = 0 then .ok (-1, c) else c.sys.msgqAt id >>= use id
      | none => .ok (-1, c)) := by
  refine finds_of_handle fun id entry => ?_
  obtain ⟨q, at_⟩ := oneToOne.msgq entry
  rw [at_]
  exact rest id q

theorem bind_finds {β : Type} {x : Except Stop α} {f : α → Except Stop β} (first : ¬ StopsWith IsDangling x)
    (rest : ∀ a, ¬ StopsWith IsDangling (f a)) : ¬ StopsWith IsDangling (x >>= f) := by
  rw [stopsWith_bind]
  rintro (stops | ⟨a, -, stops⟩)
  · exact first stops
  · exact rest a stops

theorem destroy_finds {waiters : Nat} {a : α} : ¬ StopsWith IsDangling
      ((if waiters > 0 then .error .blocked else .ok () : Except Stop Unit) >>= fun _ => pure a) := by
  split
  · exact (stopsWith_error _).not.mpr (by simp [IsDangling])
  · exact stopsWith_ok _

theorem dispatch_finds (oneToOne : c.sys.OneToOne first) (call : Call) :
    ¬ StopsWith IsDangling (call.dispatch env c) := by
  unfold Call.dispatch flSyscallDispatch
  cases flSyscallNo call.no with
  | none => exact stopsWith_ok _
  | some called =>
    cases called with
    | write =>
      dsimp only [sysWrite]
      split
      · exact stopsWith_ok _
      · exact bind_finds hostLoad_finds fun _ => stopsWith_ok _
    | read =>
      dsimp only [sysRead]
      split
      · exact stopsWith_ok _
      split
      · exact stopsWith_ok _
      · exact bind_finds (hostStore_finds _) fun _ => stopsWith_ok _
    | pipeCreate => exact (sysPipeCreate_succeeds env _ c).not_stopsWith
    | msgqCreate => exact (sysMsgqCreate_succeeds env _ _ c).not_stopsWith
    | pipeRead =>
      refine oneToOne.using_pipe fun id p => bind_finds (pipeRead_finds p _) fun answer => ?_
      obtain ⟨result, p', world⟩ := answer
      cases result with
      | none => exact stopsWith_ok _
      | some bytes => exact bind_finds (hostStore_finds _) fun _ => stopsWith_ok _
    | pipeWrite =>
      exact oneToOne.using_pipe fun id p => bind_finds (pipeWrite_finds p) fun _ => stopsWith_ok _
    | msgqSend =>
      exact oneToOne.using_msgq fun id q => bind_finds (msgqSend_finds q) fun _ => stopsWith_ok _
    | msgqRecv =>
      refine oneToOne.using_msgq fun id q => bind_finds (msgqReceive_finds q _ _) fun answer => ?_
      obtain ⟨result, q', world⟩ := answer
      cases result with
      | none => exact stopsWith_ok _
      | some bytes => exact bind_finds (hostStore_finds _) fun _ => stopsWith_ok _
    | close =>
      dsimp only [sysClose]
      split
      · next id entry =>
          obtain ⟨p, at_⟩ := oneToOne.pipe entry
          rw [at_]
          exact destroy_finds
      · next id entry =>
          obtain ⟨q, at_⟩ := oneToOne.msgq entry
          rw [at_]
          exact destroy_finds
      · exact stopsWith_ok _

end Vrt.OneToOne

/-! ## The contract of each call -/

namespace Vrt.Ledger
variable {first : Nat} {log : List CallRecord} {env : Env W} {c c' : Caller n W} {call : Call} {ret : Size}

theorem creation (ledger : c.sys.Ledger first log) (creates : call.creates = true)
    (returned : call.dispatch env c = .ok (ret, c')) :
    ret ≠ -1 ∧ opened log ret = none ∨ ret = -1 ∧ c'.sys.table = c.sys.table ∧ c'.sys.objects = c.sys.objects := by
  have effect := Call.effect returned
  generalize c'.sys = sys' at effect ⊢
  generalize call.destroys env c = ids at effect
  cases effect with
  | nothing ret failed => exact .inr ⟨failed creates, rfl, rfl⟩
  | used ret id object object' found same plain => rw [creates] at plain; cases plain
  | discarded object => exact .inr ⟨rfl, rfl, ledger.discard object⟩
  | created object k unused =>
    refine .inl ⟨handle_ne_invalid k, ?_⟩
    rw [← ledger.agrees, vrtGet_handle, unused]
    rfl
  | closed k id entry close => simp [Call.creates, close] at creates

theorem handle_none (ledger : c.sys.Ledger first log) {type : VrtType} {h : Size}
    (other : opened log h ≠ some type) : c.sys.handle type h = none := by
  rw [Option.eq_none_iff_forall_ne_some]
  intro id found
  rw [← ledger.agrees, handle_eq_some.mp found] at other
  exact other rfl

theorem refusal (ledger : c.sys.Ledger first log) (uses : call.accepts ≠ [])
    (refused : ∀ type ∈ call.accepts, opened log call.a0 ≠ some type) :
    call.dispatch env c = .ok (-1, c) := by
  unfold Call.accepts at uses refused
  unfold Call.dispatch flSyscallDispatch
  cases no : flSyscallNo call.no with
  | none => simp [no] at uses
  | some called =>
    rw [no] at uses refused
    cases called with
    | write | read | pipeCreate | msgqCreate => simp at uses
    | pipeRead => simp [sysPipeRead, ledger.handle_none (refused .pipe (by simp))]
    | pipeWrite => simp [sysPipeWrite, ledger.handle_none (refused .pipe (by simp))]
    | msgqSend => simp [sysMsgqSend, ledger.handle_none (refused .msgq (by simp))]
    | msgqRecv => simp [sysMsgqRecv, ledger.handle_none (refused .msgq (by simp))]
    | close =>
      dsimp only [sysClose]
      split
      · next id entry =>
          have closed := refused .pipe (by simp)
          rw [← ledger.agrees, entry] at closed
          exact absurd rfl closed
      · next id entry =>
          have closed := refused .msgq (by simp)
          rw [← ledger.agrees, entry] at closed
          exact absurd rfl closed
      · rfl

theorem closure (ledger : c.sys.Ledger first log) (close : flSyscallNo call.no = some .close)
    {type : VrtType} {id : Nat} (entry : vrtGet c.sys call.a0 = some (type, id))
    (returned : call.dispatch env c = .ok (ret, c')) :
    ret = 0 ∧ (c.sys.objects id).isSome ∧ c'.sys.objects = update c.sys.objects id none ∧
      ∀ h, c'.sys.table h = if BitVec.ofNat 64 h = call.a0 then .zero else c.sys.table h := by
  obtain ⟨k, mine, isType, resource⟩ := vrtGet_eq_some.mp entry
  obtain ⟨-, object, found, same⟩ := ledger.oneToOne.owned k id resource
  have destroys : call.destroys env c = [id] := by
    rw [isType] at same
    simp only [Call.destroys, close, entry]
    cases object <;> cases same <;> rfl
  have effect := Call.effect returned
  rw [destroys] at effect
  generalize c'.sys = sys' at effect ⊢
  cases effect with
  | discarded =>
    rw [ledger.fresh _ le_rfl] at found
    cases found
  | closed k' id entry' close mine' =>
    rw [mine] at mine'
    cases handle_injective mine'
    refine ⟨rfl, by simp [found], rfl, fun h => ?_⟩
    rw [mine, setEntry_table, store_table, update_apply]
    split
    · next here => rw [here, if_pos rfl]
    · next other => rw [if_neg fun equal => other (handle_injective equal)]

theorem survival (ledger : c.sys.Ledger first log) (other : flSyscallNo call.no ≠ some .close)
    (returned : call.dispatch env c = .ok (ret, c')) {id : Nat} (live : (c.sys.objects id).isSome) :
    (c'.sys.objects id).isSome := by
  have effect := Call.effect returned
  generalize c'.sys = sys' at effect ⊢
  generalize call.destroys env c = ids at effect
  cases effect with
  | nothing => exact live
  | used ret id' object object' found =>
    rw [store_objects, update_apply]
    split
    · rfl
    · exact live
  | discarded object => rwa [ledger.discard object]
  | created object k unused =>
    rw [setEntry_objects, allocate_objects, update_apply]
    split
    · rfl
    · exact live
  | closed k id entry close => exact absurd close other

theorem contract (ledger : c.sys.Ledger first log) (call : Call) : call.Contract env (opened log) c :=
  ⟨fun creates _ _ => ledger.creation creates, ledger.refusal, fun close _ _ entry _ _ => ledger.closure close entry,
    fun other _ _ returned _ => ledger.survival other returned⟩

end Vrt.Ledger

namespace Session
variable {env : Env W} {first : Nat}

theorem ledger_start (boot : Caller n W) (down : boot.sys.inited = false)
    (fresh : ∀ id ≥ boot.sys.nextObject, boot.sys.objects id = none) :
    (start boot).caller.sys.Ledger boot.sys.nextObject (start boot).log := by
  have table : (start boot).caller.sys = { boot.sys with table := fun _ => .zero, inited := true } := by
    simp [start, flSysBootstrap, vrtInit, down]
  have empty (h : Size) : vrtGet (start boot).caller.sys h = none := by
    rw [table, vrtGet]
    split <;> rfl
  refine ⟨⟨fun id late object there => ?_, fun h id entry => ?_, fun h h' id entry => ?_⟩, fun h => ?_,
    ?_, ?_, nofun, nodup_nil⟩
  · rw [table] at there
    rw [fresh id late] at there
    cases there
  · rw [table] at entry
    cases entry
  · rw [table] at entry
    cases entry
  · rw [empty]
    rfl
  · rw [table]
  · rw [table]
    exact fresh

variable {s s' : Session n W} {calls : List Call}

theorem ledger_step {call : Call} (ledger : s.caller.sys.Ledger first s.log)
    (stepped : s.step env call = .ok s') : s'.caller.sys.Ledger first s'.log := by
  obtain ⟨⟨ret, caller⟩, returned, done⟩ := bind_eq_ok.mp stepped
  cases done
  exact ledger.effect (Call.effect returned)

theorem ledger_run (ledger : s.caller.sys.Ledger first s.log)
    (ran : s.run env calls = .ok s') : s'.caller.sys.Ledger first s'.log := by
  induction calls generalizing s with
  | nil =>
    cases ran
    exact ledger
  | cons call calls ih =>
    obtain ⟨middle, stepped, ran⟩ := bind_eq_ok.mp ran
    exact ih (ledger_step ledger stepped) ran

theorem run_finds (ledger : s.caller.sys.Ledger first s.log) : ¬ StopsWith IsDangling (s.run env calls) := by
  induction calls generalizing s with
  | nil => exact stopsWith_ok _
  | cons call calls ih =>
    rw [run, foldlM_cons, stopsWith_bind]
    rintro (stops | ⟨middle, stepped, stops⟩)
    · rw [step, stopsWith_bind] at stops
      rcases stops with stops | ⟨answer, -, stops⟩
      · exact ledger.oneToOne.dispatch_finds call stops
      · exact stopsWith_ok _ stops
    · exact ih (ledger_step ledger stepped) stops

end Session

theorem table_tracks_objects (env : Env W) (boot : Caller n W) (down : boot.sys.inited = false)
    (fresh : ∀ id ≥ boot.sys.nextObject, boot.sys.objects id = none) (calls : List Call) :
    (∀ id, (Session.start boot).run env calls ≠ .error (.dangling id)) ∧
    ∀ s, (Session.start boot).run env calls = .ok s → s.caller.sys.OneToOne boot.sys.nextObject ∧
      (∀ h, (vrtGet s.caller.sys h).map Prod.fst = opened s.log h) ∧
      (destroyed s.log).Nodup ∧
      ∀ call : Call, call.Contract env (opened s.log) s.caller := by
  have start := Session.ledger_start boot down fresh
  refine ⟨fun id stopped => ?_, fun s ran => ?_⟩
  · exact Session.run_finds start ⟨_, stopped, id, rfl⟩
  · have ledger := Session.ledger_run start ran
    exact ⟨ledger.oneToOne, ledger.agrees, ledger.once, ledger.contract⟩

def smallBoot : Caller 4 Unit := ⟨⟨fun _ => 7, 4096, by decide, by decide⟩, vrtStatics, ()⟩

def smallSession : List Call :=
  [⟨3, 8, 0, 0, 0⟩, ⟨5, 0, 4096, 3, 0⟩, ⟨9, 0, 0, 0, 0⟩, ⟨6, 2, 4, 0, 0⟩, ⟨4, 0, 4096, 1, 0⟩]

theorem table_tracks_objects_small : ∃ s, (Session.start smallBoot).run idleHost smallSession = .ok s ∧
      s.caller.sys.OneToOne 0 ∧
      (∀ h, (vrtGet s.caller.sys h).map Prod.fst = opened s.log h) ∧
      (destroyed s.log).Nodup ∧
      ∀ call : Call, call.Contract idleHost (opened s.log) s.caller :=
  ⟨_, rfl, (table_tracks_objects idleHost smallBoot rfl (fun _ _ => rfl) smallSession).2 _ rfl⟩

end Flinstone.Sys
