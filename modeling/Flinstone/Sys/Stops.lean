import Flinstone.Lib.Loop
import Flinstone.Sys.Syscall

/-! # When a system call does not return -/

namespace Flinstone.Sys
open Flinstone.Lib Flinstone.Vm Option

variable {n : Nat} {W : Type}

def Confined (mem : VmMem n) (ptr : Size) (len : Nat) : Prop :=
  mem.base.toNat ≤ ptr.toNat ∧ ptr.toNat + len ≤ mem.base.toNat + n

def ValidBuffer (mem : VmMem n) (ptr : Size) (len : Nat) : Prop := ptr = 0 ∨ Confined mem ptr len

def IsKernelStop (stop : Stop) : Prop :=
  (∃ offset length, stop = .heap offset length) ∨ (∃ id, stop = .dangling id) ∨ stop = .blocked

abbrev StopsIff {α : Type} (stops : Prop) (r : Except Stop α) : Prop := Decided IsKernelStop stops r

/-! ## The caller's memory -/

section
variable {mem : VmMem n} {ptr : Size} {len : Nat}

theorem Confined.load (confined : Confined mem ptr len) : Succeeds (hostLoad mem ptr len) := ⟨_, dif_pos confined⟩

theorem Confined.byte (confined : Confined mem ptr len) {i : Nat} (inside : i < len) :
    Succeeds (hostByte mem ptr i) := by
  have bounds := confined
  simp only [Confined] at bounds
  exact ⟨_, dif_pos (by omega)⟩

theorem Confined.store (confined : Confined mem ptr len) {bytes : List Byte}
    (short : bytes.length ≤ len) : Succeeds (hostStore mem ptr bytes) := by
  have bounds := confined
  simp only [Confined] at bounds
  exact ⟨_, if_pos (by omega)⟩

end

/-! ## Pipes and message queues -/

theorem pipePut_succeeds {src : Nat → Except Stop Byte} {p : Pipe} {written count : Nat}
    (readable : ∀ i < written + count, Succeeds (src i)) :
    Succeeds (pipePut src p written count) := by
  induction count generalizing p written with
  | zero => exact succeeds_ok _
  | succ count ih =>
    unfold pipePut
    split
    · obtain ⟨b, read⟩ := readable written (by omega)
      rw [read]
      exact ih fun i below => readable i (by omega)
    · exact succeeds_ok _

theorem pipeTake_length (p : Pipe) (count : Nat) : (pipeTake p count).2.length ≤ count := by
  induction count generalizing p with
  | zero => exact le_refl 0
  | succ count ih =>
    unfold pipeTake
    split
    · exact Nat.succ_le_succ (ih _)
    · exact Nat.zero_le _

theorem awaitReadable_eq (p : Pipe) (wakeups : Nat) :
    awaitReadable p wakeups = if p.starved then .error .blocked else .ok p := by
  induction wakeups with
  | zero => rfl
  | succ wakeups ih =>
    unfold awaitReadable
    rw [show ({ p with waiters := p.waiters + 1 - 1 } : Pipe) = p from rfl, ih]
    split <;> rfl

theorem pipeRead_decided (env : Env W) (p : Pipe) {count : Nat} (nonempty : count ≠ 0) (w : W) :
    StopsIff (p.starved = true) (pipeRead env p count w) ∧
      ∀ bytes p' w', pipeRead env p count w = .ok (some bytes, p', w') → bytes.length ≤ count := by
  unfold pipeRead
  rw [if_neg nonempty]
  simp only [awaitReadable_eq]
  cases p.starved with
  | true =>
    refine ⟨.error rfl (.inr (.inr rfl)), fun bytes p' w' result => ?_⟩
    cases result
  | false =>
    simp only [Bool.false_eq_true, if_false]
    split
    · refine ⟨.ok (by simp) _, fun bytes p' w' result => ?_⟩
      simp at result
    · refine ⟨.ok (by simp) _, fun bytes p' w' result => ?_⟩
      simp only [Except.ok.injEq, Prod.mk.injEq, some.injEq] at result
      rw [← result.1]
      exact pipeTake_length p count

def Msgq.SendOverruns (q : Msgq) (size : Nat) : Prop :=
  size ≠ 0 ∧ size ≤ q.messageSize ∧ q.closing = false ∧ q.ring.len < q.maxMessages ∧
    q.capacity < q.slot q.ring.tail + q.messageSize

theorem msgqSend_decided (q : Msgq) {msg : Except Stop (List Byte)} (readable : Succeeds msg)
    (size : Nat) : StopsIff (q.SendOverruns size) (msgqSend q msg size) := by
  unfold msgqSend
  split
  · next nothing => exact .ok (fun overruns => overruns.1 nothing) _
  split
  · exact .ok (fun overruns => by have := overruns.2.1; omega) _
  split
  · next closing => exact .ok (fun overruns => by rw [overruns.2.2.1] at closing; cases closing) _
  split
  · next nonempty fits open_ room =>
      split
      · obtain ⟨bytes, rfl⟩ := readable
        exact .ok (fun overruns => by have := overruns.2.2.2.2; omega) _
      · next outside =>
          exact .error ⟨nonempty, by omega, by simpa using open_, room, by omega⟩ (.inl ⟨_, _, rfl⟩)
  · next full => exact .ok (fun overruns => full overruns.2.2.2.1) _

def Msgq.ReceiveOverruns (q : Msgq) (size : Nat) : Prop :=
  size ≠ 0 ∧ q.closing = false ∧ 0 < q.ring.len ∧
    q.capacity < q.slot q.ring.head + min size q.messageSize

theorem msgqTake_decided (q : Msgq) (openQueue : q.closing = false) {size : Nat} (nonempty : size ≠ 0) :
    StopsIff (q.ReceiveOverruns size) (msgqTake q size) ∧
      ∀ bytes q', msgqTake q size = .ok (some bytes, q') → bytes.length ≤ size := by
  unfold msgqTake
  split
  · next occupied =>
      unfold Msgq.load
      by_cases inside : q.slot q.ring.head + min size q.messageSize ≤ q.capacity
      · simp only [inside, if_true]
        refine ⟨.ok (fun overruns => by have := overruns.2.2.2; omega) _, fun bytes q' result => ?_⟩
        simp only [Except.ok.injEq, Prod.mk.injEq, some.injEq] at result
        rw [← result.1]
        simp
      · simp only [inside, if_false]
        refine ⟨.error ⟨nonempty, openQueue, occupied, by omega⟩ (.inl ⟨_, _, rfl⟩), fun bytes q' result => ?_⟩
        cases result
  · next empty =>
      refine ⟨.ok (fun overruns => empty overruns.2.2.1) _, fun bytes q' result => ?_⟩
      simp at result

theorem msgqReceive_decided (env : Env W) (q : Msgq) (size : Nat) (timeoutMs : Size) (w : W) :
    StopsIff (q.ReceiveOverruns size) (msgqReceive env q size timeoutMs w) ∧
      ∀ bytes q' w', msgqReceive env q size timeoutMs w = .ok (some bytes, q', w') → bytes.length ≤ size := by
  have nothing : ∀ (r : Except Stop (Option (List Byte) × Msgq × W)) (world : W),
      r = .ok (none, q, world) → ¬ q.ReceiveOverruns size →
      StopsIff (q.ReceiveOverruns size) r ∧ ∀ bytes q' w', r = .ok (some bytes, q', w') → bytes.length ≤ size := by
    rintro r world rfl never
    refine ⟨.ok never _, fun bytes q' w' result => ?_⟩
    simp at result
  unfold msgqReceive
  by_cases empty : size = 0
  · rw [if_pos empty]
    exact nothing _ w rfl fun overruns => overruns.1 empty
  rw [if_neg empty]
  cases closing : q.closing with
  | true => exact nothing _ w rfl fun overruns => by rw [overruns.2.1] at closing; cases closing
  | false =>
    simp only [Bool.false_eq_true, if_false]
    by_cases drained : q.ring.len = 0
    · -- nobody sends, so an empty queue stays empty through the timed wait
      have never : ¬ q.ReceiveOverruns size := fun overruns => by have := overruns.2.2.1; omega
      have starved : (q.ring.len == 0 && !q.closing) = true := by simp [drained, closing]
      have waits : ∀ codes, awaitMessage q codes = false := by
        intro codes
        induction codes with
        | nil => rfl
        | cons rc codes ih =>
          unfold awaitMessage
          rw [if_pos starved]
          split
          · rfl
          · exact ih
      simp only [drained, beq_self_eq_true, Bool.true_and, if_true, waits]
      split <;> exact nothing _ _ rfl never
    · have occupied : (q.ring.len == 0) = false := by simpa using drained
      simp only [occupied, Bool.false_and, Bool.false_eq_true, if_false, Bool.not_true]
      obtain ⟨decided, short⟩ := msgqTake_decided q closing empty
      cases result : msgqTake q size with
      | error stop =>
        rw [result] at decided
        refine ⟨?_, fun bytes q' w' impossible => by cases impossible⟩
        rcases decided with ⟨-, a, returned⟩ | ⟨overruns, other, stopped, kernel⟩
        · cases returned
        · exact .error overruns (by cases stopped; exact kernel)
      | ok answer =>
        obtain ⟨bytes, q'⟩ := answer
        rw [result] at decided
        refine ⟨.ok (decided.succeeds_iff.mp (succeeds_ok _)) _, ?_⟩
        intro bytes' q'' w' same
        simp only [Except.ok.injEq, Prod.mk.injEq] at same
        exact short bytes' q' (by rw [result, same.1])

def PipeReadStops (sys : Vrt) (h buf : Size) (count : Nat) : Prop :=
  ∃ id, sys.handle .pipe h = some id ∧ ¬ (buf = 0 ∨ count = 0) ∧ ∀ p, sys.objects id = some (.pipe p) → p.starved = true

def PipeWriteStops (sys : Vrt) (h buf : Size) (count : Nat) : Prop :=
  ∃ id, sys.handle .pipe h = some id ∧ ¬ (buf = 0 ∨ count = 0) ∧ ∀ p, sys.objects id = some (.pipe p) → False

def MsgqSendStops (sys : Vrt) (h buf : Size) (size : Nat) : Prop :=
  ∃ id, sys.handle .msgq h = some id ∧ ¬ (buf = 0 ∨ size = 0) ∧
    ∀ q, sys.objects id = some (.msgq q) → q.SendOverruns size

def MsgqReceiveStops (sys : Vrt) (h buf : Size) (size : Nat) : Prop :=
  ∃ id, sys.handle .msgq h = some id ∧ ¬ (buf = 0 ∨ size = 0) ∧
    ∀ q, sys.objects id = some (.msgq q) → q.ReceiveOverruns size

def CloseStops (sys : Vrt) (h : Size) : Prop :=
  (∃ id, vrtGet sys h = some (.pipe, id) ∧
      ∀ p, sys.objects id = some (.pipe p) → 0 < p.waiters) ∨
    ∃ id, vrtGet sys h = some (.msgq, id) ∧ ∀ q, sys.objects id = some (.msgq q) → 0 < q.waiters

section
variable {α : Type} {sys : Vrt} {id : Nat}

theorem decided_handle {type : VrtType} {h : Size} {a : α} {f : Nat → Except Stop α}
    {P : Nat → Prop} (rest : ∀ id, StopsIff (P id) (f id)) :
    StopsIff (∃ id, sys.handle type h = some id ∧ P id) (match sys.handle type h with
        | some id => f id
        | none => .ok a) := by
  cases sys.handle type h with
  | none => exact .ok (by simp) a
  | some id => simpa using rest id

theorem decided_guard {refused : Prop} [Decidable refused] {a : α} {r : Except Stop α} {P : Prop}
    (rest : ¬ refused → StopsIff P r) :
    StopsIff (¬ refused ∧ P) (if refused then .ok a else r) := by
  by_cases guard : refused
  · rw [if_pos guard]
    exact .ok (fun stops => stops.1 guard) a
  · simpa [guard] using rest guard

theorem decided_pipeAt {f : Pipe → Except Stop α} {P : Pipe → Prop} (rest : ∀ p, StopsIff (P p) (f p)) :
    StopsIff (∀ p, sys.objects id = some (.pipe p) → P p) (sys.pipeAt id >>= f) := by
  unfold Vrt.pipeAt
  split
  · next p found =>
      have this : (∀ p', sys.objects id = some (.pipe p') → P p') ↔ P p := by simp [found]
      rw [this]
      exact rest p
  · next missing =>
      exact .error (fun p found => absurd found (missing p)) (.inr (.inl ⟨id, rfl⟩))

theorem decided_msgqAt {f : Msgq → Except Stop α} {P : Msgq → Prop} (rest : ∀ q, StopsIff (P q) (f q)) :
    StopsIff (∀ q, sys.objects id = some (.msgq q) → P q) (sys.msgqAt id >>= f) := by
  unfold Vrt.msgqAt
  split
  · next q found =>
      have this : (∀ q', sys.objects id = some (.msgq q') → P q') ↔ P q := by simp [found]
      rw [this]
      exact rest q
  · next missing =>
      exact .error (fun q found => absurd found (missing q)) (.inr (.inl ⟨id, rfl⟩))

end

section
variable {mem : VmMem n} {c : Caller n W} {buf : Size} {count : Nat}

variable (env : Env W)

theorem sysWrite_succeeds (buffer : ValidBuffer c.mem buf count) :
    Succeeds (sysWrite env buf count c) := by
  unfold sysWrite
  split
  · exact succeeds_ok _
  · next nonnull => exact (buffer.resolve_left nonnull).load.bind fun _ _ => succeeds_pure _

theorem sysRead_succeeds (buffer : ValidBuffer c.mem buf count) : Succeeds (sysRead env buf count c) := by
  unfold sysRead
  split
  · exact succeeds_ok _
  · next nonnull =>
      split
      · exact succeeds_ok _
      · exact ((buffer.resolve_left nonnull).store (List.length_take_le _ _)).bind fun _ _ => succeeds_pure _

theorem pipeCreate_waiters {env : Env W} {size : Size} {w w' : W} {p : Pipe}
    (created : pipeCreate env size w = (some p, w')) : p.waiters = 0 := by
  unfold pipeCreate at created
  repeat' split at created
  all_goals simp only [Prod.mk.injEq, some.injEq, reduceCtorEq, false_and] at created
  rw [← created.1]

theorem sysPipeCreate_succeeds (size : Size) (c : Caller n W) : Succeeds (sysPipeCreate env size c) := by
  unfold sysPipeCreate
  split
  · exact succeeds_ok _
  · next p world created =>
      simp only
      split
      · exact succeeds_ok _
      · refine Succeeds.bind ⟨(), ?_⟩ fun _ _ => succeeds_pure _
        simp [pipeDestroy, pipeCreate_waiters created]

theorem msgqCreate_waiters {env : Env W} {maxMessages messageSize : Size} {w w' : W} {q : Msgq}
    (created : msgqCreate env maxMessages messageSize w = (some q, w')) : q.waiters = 0 := by
  unfold msgqCreate at created
  repeat' split at created
  all_goals simp only [Prod.mk.injEq, some.injEq, reduceCtorEq, false_and] at created
  rw [← created.1]

theorem sysMsgqCreate_succeeds (maxMsgs msgSize : Size) (c : Caller n W) :
    Succeeds (sysMsgqCreate env maxMsgs msgSize c) := by
  unfold sysMsgqCreate
  split
  · exact succeeds_ok _
  · next q world created =>
      simp only
      split
      · exact succeeds_ok _
      · refine Succeeds.bind ⟨(), ?_⟩ fun _ _ => succeeds_pure _
        simp [msgqDestroy, msgqCreate_waiters created]

theorem sysPipeRead_decided (h : Size) (buffer : ValidBuffer c.mem buf count) :
    StopsIff (PipeReadStops c.sys h buf count) (sysPipeRead env h buf count c) := by
  refine decided_handle fun id => decided_guard fun given => decided_pipeAt fun p => ?_
  obtain ⟨decided, short⟩ := pipeRead_decided env p (fun none => given (.inr none)) c.world
  refine decided.bind fun answer returned => ?_
  obtain ⟨result, p', world⟩ := answer
  cases result with
  | none => exact succeeds_pure _
  | some bytes =>
    have confined := buffer.resolve_left fun null => given (.inl null)
    exact (confined.store (short bytes p' world returned)).bind fun _ _ => succeeds_pure _

theorem sysPipeWrite_decided (h : Size) (buffer : ValidBuffer c.mem buf count) :
    StopsIff (PipeWriteStops c.sys h buf count) (sysPipeWrite h buf count c) := by
  refine decided_handle fun id => decided_guard fun given => decided_pipeAt fun p => ?_
  have confined := buffer.resolve_left fun null => given (.inl null)
  have written : Succeeds (pipeWrite p (hostByte c.mem buf) count) := by
    unfold pipeWrite
    split
    · exact succeeds_ok _
    split
    · exact succeeds_ok _
    · have readable : ∀ i < 0 + count, Succeeds (hostByte c.mem buf i) := fun i inside => confined.byte (by omega)
      obtain ⟨⟨p', k⟩, put⟩ := pipePut_succeeds (p := p) readable
      rw [put]
      exact succeeds_ok _
  exact .of_succeeds not_false (written.bind fun _ _ => succeeds_pure _)

theorem sysMsgqSend_decided (h : Size) (buffer : ValidBuffer c.mem buf count) :
    StopsIff (MsgqSendStops c.sys h buf count) (sysMsgqSend h buf count c) := by
  refine decided_handle fun id => decided_guard fun given => decided_msgqAt fun q => ?_
  have confined := buffer.resolve_left fun null => given (.inl null)
  exact (msgqSend_decided q confined.load count).bind fun _ _ => succeeds_pure _

theorem sysMsgqRecv_decided (h timeoutMs : Size) (buffer : ValidBuffer c.mem buf count) :
    StopsIff (MsgqReceiveStops c.sys h buf count) (sysMsgqRecv env h buf count timeoutMs c) := by
  refine decided_handle fun id => decided_guard fun given => decided_msgqAt fun q => ?_
  obtain ⟨decided, short⟩ := msgqReceive_decided env q count timeoutMs c.world
  refine decided.bind fun answer returned => ?_
  obtain ⟨result, q', world⟩ := answer
  cases result with
  | none => exact succeeds_pure _
  | some bytes =>
    have confined := buffer.resolve_left fun null => given (.inl null)
    exact (confined.store (short bytes q' world returned)).bind fun _ _ => succeeds_pure _

theorem sysClose_decided (h : Size) (c : Caller n W) : StopsIff (CloseStops c.sys h) (sysClose h c) := by
  unfold sysClose CloseStops
  split
  · next id entry =>
      simp only [entry, some.injEq, Prod.mk.injEq, true_and, exists_eq_left', reduceCtorEq,
        false_and, exists_const, or_false]
      refine decided_pipeAt fun p => Decided.bind ?_ fun _ _ => succeeds_pure _
      unfold pipeDestroy
      split
      · next waiting => exact .error waiting (.inr (.inr rfl))
      · next idle => exact .ok idle ()
  · next id entry =>
      simp only [entry, some.injEq, Prod.mk.injEq, true_and, exists_eq_left', reduceCtorEq,
        false_and, exists_const, false_or]
      refine decided_msgqAt fun q => Decided.bind ?_ fun _ _ => succeeds_pure _
      unfold msgqDestroy
      split
      · next waiting => exact .error waiting (.inr (.inr rfl))
      · next idle => exact .ok idle ()
  · next notPipe notMsgq =>
      refine .ok ?_ _
      rintro (⟨id, entry, -⟩ | ⟨id, entry, -⟩)
      · exact notPipe id entry
      · exact notMsgq id entry

end

/-! ## No buffer -/

section
variable (env : Env W) (h timeoutMs : Size) (count : Nat) (c : Caller n W)

theorem sysWrite_null : sysWrite env 0 count c = .ok (-1, c) := by simp [sysWrite]

theorem sysRead_null : sysRead env 0 count c = .ok (-1, c) := by simp [sysRead]

theorem sysPipeRead_null : sysPipeRead env h 0 count c = .ok (-1, c) := by
  unfold sysPipeRead
  cases c.sys.handle .pipe h <;> simp

theorem sysPipeWrite_null : sysPipeWrite h 0 count c = .ok (-1, c) := by
  unfold sysPipeWrite
  cases c.sys.handle .pipe h <;> simp

theorem sysMsgqSend_null : sysMsgqSend h 0 count c = .ok (-1, c) := by
  unfold sysMsgqSend
  cases c.sys.handle .msgq h <;> simp

theorem sysMsgqRecv_null : sysMsgqRecv env h 0 count timeoutMs c = .ok (-1, c) := by
  unfold sysMsgqRecv
  cases c.sys.handle .msgq h <;> simp

end

def CallStops (no : Word) (a0 a1 a2 : Size) (sys : Vrt) : Prop :=
  match flSyscallNo no with
  | some .pipeRead => PipeReadStops sys a0 a1 a2.toNat
  | some .pipeWrite => PipeWriteStops sys a0 a1 a2.toNat
  | some .msgqSend => MsgqSendStops sys a0 a1 a2.toNat
  | some .msgqRecv => MsgqReceiveStops sys a0 a1 a2.toNat
  | some .close => CloseStops sys a0
  | _ => False

def ValidArgs (mem : VmMem n) (no : Word) (a0 a1 a2 : Size) : Prop :=
  match flSyscallNo no with
  | some .write | some .read => ValidBuffer mem a0 a1.toNat
  | some .pipeRead | some .pipeWrite | some .msgqSend | some .msgqRecv =>
    ValidBuffer mem a1 a2.toNat
  | _ => True

theorem flSyscallDispatch_decided (env : Env W) (no : Word) (a0 a1 a2 a3 : Size) (c : Caller n W)
    (valid : ValidArgs c.mem no a0 a1 a2) :
    StopsIff (CallStops no a0 a1 a2 c.sys) (flSyscallDispatch env no a0 a1 a2 a3 c) := by
  unfold ValidArgs at valid
  unfold CallStops flSyscallDispatch
  generalize flSyscallNo no = number at valid ⊢
  cases number with
  | none => exact .ok not_false _
  | some call =>
    cases call with
    | write => exact .of_succeeds not_false (sysWrite_succeeds env valid)
    | read => exact .of_succeeds not_false (sysRead_succeeds env valid)
    | pipeCreate => exact .of_succeeds not_false (sysPipeCreate_succeeds env a0 c)
    | pipeRead => exact sysPipeRead_decided env a0 valid
    | pipeWrite => exact sysPipeWrite_decided a0 valid
    | msgqCreate => exact .of_succeeds not_false (sysMsgqCreate_succeeds env a0 a1 c)
    | msgqSend => exact sysMsgqSend_decided a0 valid
    | msgqRecv => exact sysMsgqRecv_decided env a0 a3 valid
    | close => exact sysClose_decided a0 c

end Flinstone.Sys
