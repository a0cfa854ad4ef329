import Flinstone.Sys.Stops

/-! # Message queues stay inside their buffer -/

namespace Flinstone.Sys
open Flinstone.Lib Flinstone.Vm

inductive MsgqOp where
  | send (msg : List Byte)
  | receive (size : Nat) (timeoutMs : Size)

variable {W : Type}

def msgqStep (env : Env W) : MsgqOp → Msgq × W → Except Stop (Msgq × W)
  | .send msg, (q, w) => (msgqSend q (.ok msg) msg.length).map fun r => (r.2, w)
  | .receive size timeoutMs, (q, w) => (msgqReceive env q size timeoutMs w).map fun r => r.2

def msgqRun (env : Env W) : List MsgqOp → Msgq × W → Except Stop (Msgq × W)
  | [], state => .ok state
  | op :: ops, state => msgqStep env op state >>= msgqRun env ops

def Env.Allocates (env : Env W) : Prop := ∀ size w granted w', env.malloc size w = (some granted, w') → size ≤ granted

theorem idleHost_allocates : idleHost.Allocates := by
  intro size w granted w' allocated
  simp only [idleHost, Prod.mk.injEq, Option.some.injEq] at allocated
  omega

structure Msgq.Fits (q : Msgq) : Prop where
  exact : q.maxMessages * q.messageSize < 2 ^ 64
  room : q.maxMessages * q.messageSize ≤ q.capacity

namespace Msgq.Fits
variable {q : Msgq}

theorem slot_inside (fits : q.Fits) (i : Fin q.maxMessages) : q.slot i + q.messageSize ≤ q.capacity := by
  have next : (i.val + 1) * q.messageSize ≤ q.maxMessages * q.messageSize := Nat.mul_le_mul_right _ i.isLt
  have inside : i.val * q.messageSize + q.messageSize ≤ q.maxMessages * q.messageSize := by
    rw [← Nat.succ_mul]
    exact next
  have exact := fits.exact
  have room := fits.room
  have start : q.slot i = i.val * q.messageSize := Nat.mod_eq_of_lt (by omega)
  omega

theorem send_succeeds (fits : q.Fits) (msg : List Byte) : Succeeds (msgqSend q (.ok msg) msg.length) := by
  rw [(msgqSend_decided q (succeeds_ok msg) msg.length).succeeds_iff]
  intro overruns
  have inside := fits.slot_inside q.ring.tail
  have outside := overruns.2.2.2.2
  omega

theorem receive_succeeds (env : Env W) (fits : q.Fits) (size : Nat) (timeoutMs : Size) (w : W) :
    Succeeds (msgqReceive env q size timeoutMs w) := by
  rw [(msgqReceive_decided env q size timeoutMs w).1.succeeds_iff]
  intro overruns
  have inside := fits.slot_inside q.ring.head
  have outside := overruns.2.2.2
  omega

end Msgq.Fits

def Msgq.SameShape (q q' : Msgq) : Prop :=
  q'.maxMessages = q.maxMessages ∧ q'.messageSize = q.messageSize ∧ q'.capacity = q.capacity

variable {q : Msgq} {msg : List Byte} {size : Nat} {r : Size × Msgq} {env : Env W} {w w' : W} {state : Msgq × W}
  {maxMessages messageSize : Size}

theorem Msgq.Fits.of_sameShape {q' : Msgq} (fits : q.Fits) (same : q.SameShape q') : q'.Fits := by
  obtain ⟨slots, size, capacity⟩ := same
  constructor
  · rw [slots, size]
    exact fits.exact
  · rw [slots, size, capacity]
    exact fits.room

theorem msgqSend_sameShape {msg : Except Stop (List Byte)} (sent : msgqSend q msg size = .ok r) : q.SameShape r.2 := by
  unfold msgqSend at sent
  repeat' split at sent
  all_goals
    cases sent
    try exact ⟨rfl, rfl, rfl⟩

theorem msgqTake_sameShape {r : Option (List Byte) × Msgq} (taken : msgqTake q size = .ok r) : q.SameShape r.2 := by
  unfold msgqTake at taken
  repeat' split at taken
  all_goals
    cases taken
    try exact ⟨rfl, rfl, rfl⟩

theorem msgqReceive_sameShape {timeoutMs : Size}
    {r : Option (List Byte) × Msgq × W} (received : msgqReceive env q size timeoutMs w = .ok r) :
    q.SameShape r.2.1 := by
  have idle (w' : W) : q.SameShape ((none, q, w') : Option (List Byte) × Msgq × W).2.1 := ⟨rfl, rfl, rfl⟩
  unfold msgqReceive at received
  split at received
  · cases received
    exact idle w
  split at received
  · cases received
    exact idle w
  split at received
  · cases received
    exact idle w
  generalize (if q.ring.len == 0 then _ else _ : Bool × W) = waited at received
  obtain ⟨arrived, w'⟩ := waited
  cases arrived with
  | false =>
    cases received
    exact idle w'
  | true =>
    cases taken : msgqTake q size with
    | error stop => simp [taken] at received
    | ok answer =>
      simp only [Bool.not_true, Bool.false_eq_true, if_false, taken, Except.ok.injEq] at received
      rw [← received]
      exact msgqTake_sameShape taken

theorem msgqStep_fits (env : Env W) (op : MsgqOp) (fits : state.1.Fits) :
    ∃ state', msgqStep env op state = .ok state' ∧ state'.1.Fits := by
  obtain ⟨q, w⟩ := state
  cases op with
  | send msg =>
    obtain ⟨r, sent⟩ := fits.send_succeeds msg
    exact ⟨(r.2, w), by simp [msgqStep, sent, Except.map], fits.of_sameShape (msgqSend_sameShape sent)⟩
  | receive size timeoutMs =>
    obtain ⟨r, received⟩ := fits.receive_succeeds env size timeoutMs w
    exact ⟨r.2, by simp [msgqStep, received, Except.map], fits.of_sameShape (msgqReceive_sameShape received)⟩

theorem msgqRun_fits (env : Env W) (ops : List MsgqOp) (fits : state.1.Fits) : Succeeds (msgqRun env ops state) := by
  induction ops generalizing state with
  | nil => exact succeeds_ok _
  | cons op ops ih =>
    obtain ⟨state', stepped, fits'⟩ := msgqStep_fits env op fits
    unfold msgqRun
    rw [stepped]
    exact ih fits'

theorem msgqCreate_fields (created : msgqCreate env maxMessages messageSize w = (some q, w')) :
    q.maxMessages = maxMessages.toNat ∧ q.messageSize = messageSize.toNat ∧
      (env.Allocates → msgqBufferSize maxMessages messageSize ≤ q.capacity) := by
  unfold msgqCreate at created
  repeat' split at created
  all_goals simp only [Prod.mk.injEq, Option.some.injEq, reduceCtorEq, false_and] at created
  obtain ⟨rfl, -⟩ := created
  exact ⟨rfl, rfl, fun allocates => allocates _ _ _ _ (by assumption)⟩

theorem msgqCreate_fits (allocates : env.Allocates) (exact : maxMessages.toNat * messageSize.toNat < 2 ^ 64)
    (created : msgqCreate env maxMessages messageSize w = (some q, w')) : q.Fits := by
  obtain ⟨slots, size, granted⟩ := msgqCreate_fields created
  have capacity := granted allocates
  rw [msgqBufferSize, BitVec.toNat_mul, Nat.mod_eq_of_lt exact] at capacity
  constructor <;> rw [slots, size]
  · exact exact
  · exact capacity

theorem msgqRun_send {ops : List MsgqOp} (runs : Succeeds (msgqRun env (.send msg :: ops) (q, w))) :
    ∃ r, msgqSend q (.ok msg) msg.length = .ok r ∧ Succeeds (msgqRun env ops (r.2, w)) := by
  obtain ⟨last, ended⟩ := runs
  obtain ⟨state, stepped, rest⟩ := bind_eq_ok.mp ended
  obtain ⟨r, sent, rfl⟩ := map_eq_ok.mp stepped
  exact ⟨r, sent, last, rest⟩

theorem msgqSend_places (nonempty : msg.length ≠ 0) (short : msg.length ≤ q.messageSize) (isOpen : q.closing = false)
    (room : q.ring.len < q.maxMessages) (sent : msgqSend q (.ok msg) msg.length = .ok r) :
    q.slot q.ring.tail + q.messageSize ≤ q.capacity ∧ r.2 = { q with buf := q.fill msg, ring := q.ring.push room } := by
  unfold msgqSend at sent
  rw [if_neg nonempty, if_neg (not_lt.mpr short), if_neg (by simp [isOpen]), dif_pos room] at sent
  split at sent
  · next inside =>
      cases sent
      exact ⟨inside, rfl⟩
  · cases sent

theorem sends_inside (env : Env W) (w : W) (msg : List Byte) {count : Nat}
    (isOpen : q.closing = false) (nonempty : msg.length ≠ 0) (short : msg.length ≤ q.messageSize)
    (aligned : q.ring.tail.val = q.ring.len)
    (runs : Succeeds (msgqRun env (List.replicate count (.send msg)) (q, w))) {i : Nat}
    (lower : q.ring.len ≤ i) (upper : i < q.ring.len + count) (below : i < q.maxMessages) :
    i * q.messageSize % 2 ^ 64 + q.messageSize ≤ q.capacity := by
  induction count generalizing q with
  | zero => omega
  | succ count ih =>
    have room : q.ring.len < q.maxMessages := by omega
    obtain ⟨r, sent, rest⟩ := msgqRun_send runs
    obtain ⟨inside, placed⟩ := msgqSend_places nonempty short isOpen room sent
    rw [placed] at rest
    cases eq_or_lt_of_le lower with
    | inl same =>
      rw [← same, ← aligned]
      exact inside
    | inr later =>
      have small : q.ring.len + 1 < q.maxMessages := by omega
      have next : (q.ring.push room).tail.val = (q.ring.push room).len := by
        simp [Ring.push, advance, aligned, Nat.mod_eq_of_lt small]
      have within : i < (q.ring.push room).len + count := by
        simp only [Ring.push]
        omega
      exact ih (q := { q with buf := q.fill msg, ring := q.ring.push room })
        isOpen short next rest later within below

theorem wrapping_slot {slots : Nat} (wraps : 2 ^ 64 ≤ slots * size) :
    ∃ i, i < slots ∧ i * size < 2 ^ 64 ∧ 2 ^ 64 ≤ i * size + size := by
  have positive : 0 < size := by
    rcases Nat.eq_zero_or_pos size with rfl | positive
    · simp at wraps
    · exact positive
  have quotient := Nat.div_add_mod (2 ^ 64 - 1) size
  have remainder := Nat.mod_lt (2 ^ 64 - 1) positive
  rw [mul_comm] at quotient
  refine ⟨(2 ^ 64 - 1) / size, (Nat.div_lt_iff_lt_mul positive).mpr (by omega), by omega, by omega⟩

theorem idleHost_create (slots : 0 < maxMessages.toNat) (size : 0 < messageSize.toNat) :
    msgqCreate idleHost maxMessages messageSize () =
      (some ⟨maxMessages.toNat, messageSize.toNat, msgqBufferSize maxMessages messageSize,
        fun _ => 0, .empty slots, false, 0⟩, ()) :=
  dif_pos ⟨slots, size⟩

theorem msgq_inside_iff (maxMessages messageSize : Size) : (∀ (W : Type) (env : Env W), env.Allocates → ∀ w q w',
      msgqCreate env maxMessages messageSize w = (some q, w') → ∀ ops, Succeeds (msgqRun env ops (q, w'))) ↔
      maxMessages.toNat * messageSize.toNat < 2 ^ 64 := by
  constructor
  · intro inside
    by_contra wraps
    obtain ⟨i, below, exact, ends⟩ := wrapping_slot (not_lt.mp wraps)
    have size : 0 < messageSize.toNat := by omega
    have runs := inside Unit idleHost idleHost_allocates () _ ()
      (idleHost_create (Nat.zero_lt_of_lt below) size) (List.replicate (i + 1) (.send [0]))
    have within := sends_inside idleHost () [0] (by rfl) (by simp) (by exact size) (by rfl) runs
      (Nat.zero_le i) (by simp [Ring.empty]) below
    have capacity : msgqBufferSize maxMessages messageSize < 2 ^ 64 := BitVec.isLt _
    rw [Nat.mod_eq_of_lt exact] at within
    exact absurd (ends.trans within) (not_le.mpr capacity)
  · intro exact W env allocates w q w' created ops
    exact msgqRun_fits env ops (msgqCreate_fits allocates exact created)

theorem ninth_send_strays : (msgqCreate idleHost 0x8000000000000008 2 ()).1.map (fun q =>
      (q.capacity, (msgqRun idleHost (List.replicate 9 (.send [0])) (q, ())).map fun _ => ())) =
      some (16, .error (.heap 16 2)) := by
  decide +kernel

theorem msgq_leaves_buffer : ∃ q, (msgqCreate idleHost 0x8000000000000008 2 ()).1 = some q ∧ q.capacity = 16 ∧
      StopsWith (· = .heap 16 2) (msgqRun idleHost (List.replicate 9 (.send [0])) (q, ())) := by
  obtain ⟨q, created, outcome⟩ := Option.map_eq_some_iff.mp ninth_send_strays
  obtain ⟨capacity, stopped⟩ := Prod.mk.inj outcome
  refine ⟨q, created, capacity, (stopsWith_map _ fun _ => ()).mp ?_⟩
  rw [stopped]
  exact ⟨_, rfl, rfl⟩

end Flinstone.Sys
