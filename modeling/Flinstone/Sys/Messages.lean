import Flinstone.Sys.MessageQueue
import Flinstone.Sys.Streams
import Mathlib.Data.List.GetD

/-! # Message queues between threads -/

namespace Flinstone.Sys
open Flinstone.Lib Flinstone.Vm List Function

/-! ## The list of messages -/

inductive MsgqEvent where
  | sent (msg : Option (List Byte)) (ret : Size)
  | received (size : Nat) (dst dst' : List Byte) (ret : Size)

def pad (messageSize : Nat) (msg : List Byte) : List Byte := msg ++ List.replicate (messageSize - msg.length) 0

theorem pad_eq {messageSize : Nat} {msg : List Byte} (short : msg.length ≤ messageSize) :
    pad messageSize msg = (range messageSize).map fun k => msg.getD k 0 := by
  apply ext_getElem
  · simp only [pad, length_append, length_replicate, length_map, length_range]
    omega
  · intro k bound bound'
    simp only [pad, getElem_map, getElem_range]
    by_cases inside : k < msg.length
    · rw [getElem_append_left inside, getD_eq_getElem _ _ inside]
    · rw [getElem_append_right (by omega), getElem_replicate, getD_eq_default _ _ (by omega)]

/-- What a call may do to a list of at most `maxMessages` messages of `messageSize` bytes. -/
inductive Fifo (maxMessages messageSize : Nat) : List (List Byte) → MsgqEvent → List (List Byte) → Prop
  | accept {queue : List (List Byte)} {msg : List Byte} (nonempty : msg ≠ [])
      (short : msg.length ≤ messageSize) (room : queue.length < maxMessages) :
      Fifo maxMessages messageSize queue (.sent (some msg) 0) (queue ++ [pad messageSize msg])
  | refuse {queue : List (List Byte)} {msg : Option (List Byte)}
      (reason : ∀ bytes ∈ msg, bytes = [] ∨ messageSize < bytes.length ∨ queue.length = maxMessages) :
      Fifo maxMessages messageSize queue (.sent msg (-1)) queue
  | deliver {queue : List (List Byte)} (msg dst : List Byte) {size : Nat} (positive : 0 < size) :
      Fifo maxMessages messageSize (msg :: queue)
        (.received size dst (msg.take (min size messageSize) ++ dst.drop (min size messageSize)) 0)
        queue
  | miss {queue : List (List Byte)} {size : Nat} {dst : List Byte} :
      Fifo maxMessages messageSize queue (.received size dst dst (-1)) queue

def FifoLog (maxMessages messageSize : Nat) : List (List Byte) → List MsgqEvent → List (List Byte) → Prop
  | queue, [], queue' => queue = queue'
  | queue, event :: log, queue' =>
    ∃ next, Fifo maxMessages messageSize queue event next ∧ FifoLog maxMessages messageSize next log queue'

def acceptedMessages (messageSize : Nat) (log : List MsgqEvent) : List (List Byte) :=
  log.filterMap fun
    | .sent (some msg) ret => if ret = 0 then some (pad messageSize msg) else none
    | _ => none

structure Receipt where
  size : Nat
  dst : List Byte
  dst' : List Byte

def receipts (log : List MsgqEvent) : List Receipt :=
  log.filterMap fun
    | .received size dst dst' ret => if ret = 0 then some ⟨size, dst, dst'⟩ else none
    | _ => none

/-- The receiver's memory holds the first bytes of the message and is unchanged behind them. -/
def Receipt.Holds (messageSize : Nat) (r : Receipt) (msg : List Byte) : Prop :=
  r.dst' = msg.take (min r.size messageSize) ++ r.dst.drop (min r.size messageSize)

section
variable {maxMessages messageSize : Nat} {queue queue' : List (List Byte)} {log : List MsgqEvent}

theorem FifoLog.snoc {queue₁ : List (List Byte)} {event : MsgqEvent}
    (logged : FifoLog maxMessages messageSize queue log queue₁)
    (next : Fifo maxMessages messageSize queue₁ event queue') :
    FifoLog maxMessages messageSize queue (log ++ [event]) queue' := by
  induction log generalizing queue with
  | nil =>
    cases logged
    exact ⟨queue', next, rfl⟩
  | cons first log ih =>
    obtain ⟨queue₂, stepped, rest⟩ := logged
    exact ⟨queue₂, stepped, ih rest⟩

theorem FifoLog.delivered (logged : FifoLog maxMessages messageSize queue log queue') :
    ∃ messages, queue ++ acceptedMessages messageSize log = messages ++ queue' ∧
      Forall₂ (Receipt.Holds messageSize) (receipts log) messages := by
  induction log generalizing queue with
  | nil =>
    cases logged
    exact ⟨[], by simp [acceptedMessages], .nil⟩
  | cons event log ih =>
    obtain ⟨queue₁, stepped, rest⟩ := logged
    obtain ⟨messages, split, holds⟩ := ih rest
    cases stepped with
    | accept nonempty short room =>
      exact ⟨messages, by simpa [acceptedMessages] using split, by simpa [receipts] using holds⟩
    | refuse reason =>
      refine ⟨messages, ?_, by simpa [receipts] using holds⟩
      rename_i msg
      cases msg <;> simpa [acceptedMessages] using split
    | deliver msg dst positive =>
      exact ⟨msg :: messages, by simpa [acceptedMessages] using split, .cons rfl holds⟩
    | miss =>
      exact ⟨messages, by simpa [acceptedMessages] using split, by simpa [receipts] using holds⟩

end

structure Receive where
  dst : List Byte
  size : Nat

structure MsgqThreads (T : Type) where
  queue : Msgq
  thread : T → Place Receive
  log : List MsgqEvent

/-- A pointer is `none` if it is `NULL`; `rc` is what `pthread_cond_timedwait` returns. -/
inductive MsgqAction where
  | send (msg : Option (List Byte))
  | receive (msg : Option (List Byte)) (size : Nat) (timeoutMs : Size)
  | wake (rc : Word)

namespace MsgqThreads
variable {T : Type} [DecidableEq T]

def start (q : Msgq) : MsgqThreads T := ⟨q, fun _ => .outside, []⟩

def fail (s : MsgqThreads T) (t : T) (call : Receive) : MsgqThreads T :=
  { s with
    thread := update s.thread t .outside
    log := s.log ++ [.received call.size call.dst call.dst (-1)] }

def wait (s : MsgqThreads T) (t : T) (call : Receive) : MsgqThreads T :=
  { s with
    queue := { s.queue with waiters := s.queue.waiters + 1 }
    thread := update s.thread t (.waiting call) }

def finish (s : MsgqThreads T) (t : T) (call : Receive) : Except Stop (MsgqThreads T) := do
  match ← msgqTake s.queue call.size with
  | (none, _) => return s.fail t call
  | (some bytes, q) =>
    return { s with
      queue := q
      thread := update s.thread t .outside
      log := s.log ++ [.received call.size call.dst (bytes ++ call.dst.drop bytes.length) 0] }

def receive (build : Build) (s : MsgqThreads T) (t : T) (call : Receive) (timeoutMs : Size) :
    Except Stop (MsgqThreads T) :=
  if call.size = 0 then .ok (s.fail t call)
  else
    match build with
    | .kernel => s.finish t call
    | .hosted =>
      if s.queue.closing then .ok (s.fail t call)
      else if s.queue.ring.len = 0 then
        .ok (if timeoutMs = 0 then s.fail t call else s.wait t call)
      else s.finish t call

def resume (s : MsgqThreads T) (t : T) (call : Receive) (rc : Word) : Except Stop (MsgqThreads T) :=
  let s := { s with queue := { s.queue with waiters := s.queue.waiters - 1 } }
  if rc ≠ 0 then .ok (s.fail t call)
  else if s.queue.ring.len == 0 && !s.queue.closing then .ok (s.wait t call)
  else if s.queue.closing && s.queue.ring.len == 0 then .ok (s.fail t call)
  else s.finish t call

def step (build : Build) (s : MsgqThreads T) (t : T) (action : MsgqAction) : Except Stop (MsgqThreads T) :=
  match s.thread t, action with
  | .outside, .send none => .ok { s with log := s.log ++ [.sent none (-1)] }
  | .outside, .send (some msg) => do
      let (ret, q) ← msgqSend s.queue (.ok msg) msg.length
      return { s with queue := q, log := s.log ++ [.sent (some msg) ret] }
  | .outside, .receive none size _ => .ok (s.fail t ⟨[], size⟩)
  | .outside, .receive (some dst) size timeoutMs => s.receive build t ⟨dst, size⟩ timeoutMs
  | .waiting call, .wake rc => s.resume t call rc
  | _, _ => .ok s

def run (build : Build) (s : MsgqThreads T) : List (T × MsgqAction) → Except Stop (MsgqThreads T)
  | [] => .ok s
  | (t, action) :: rest => s.step build t action >>= fun s => run build s rest

end MsgqThreads

namespace Msgq
variable {q : Msgq}

def message (q : Msgq) (i : Fin q.maxMessages) : List Byte :=
  (List.range q.messageSize).map fun j => q.buf (q.slot i + j)

def messages (q : Msgq) : List (List Byte) := q.ring.window q.message

@[simp] theorem length_messages (q : Msgq) : q.messages.length = q.ring.len := q.ring.length_window _

theorem Fits.slot_eq (fits : q.Fits) (i : Fin q.maxMessages) : q.slot i = i.val * q.messageSize := by
  have below : i.val * q.messageSize ≤ q.maxMessages * q.messageSize := Nat.mul_le_mul_right _ i.isLt.le
  exact Nat.mod_eq_of_lt (below.trans_lt fits.exact)

theorem Fits.slots_apart (fits : q.Fits) {i j : Fin q.maxMessages} (different : i ≠ j) {k : Nat}
    (inside : k < q.messageSize) :
    ¬ (q.slot j ≤ q.slot i + k ∧ q.slot i + k < q.slot j + q.messageSize) := by
  rw [fits.slot_eq, fits.slot_eq]
  rcases lt_or_gt_of_ne (Fin.val_ne_of_ne different) with below | above
  · have next : (i.val + 1) * q.messageSize ≤ j.val * q.messageSize := Nat.mul_le_mul_right _ below
    rw [Nat.succ_mul] at next
    omega
  · have next : (j.val + 1) * q.messageSize ≤ i.val * q.messageSize := Nat.mul_le_mul_right _ above
    rw [Nat.succ_mul] at next
    omega

theorem Fits.message_fill (fits : q.Fits) (room : q.ring.len < q.maxMessages) {msg : List Byte}
    (short : msg.length ≤ q.messageSize) :
    ({ q with buf := q.fill msg, ring := q.ring.push room } : Msgq).message =
      update q.message q.ring.tail (pad q.messageSize msg) := by
  funext i
  by_cases same : i = q.ring.tail
  · subst same
    rw [update_self, pad_eq short]
    refine map_congr_left fun k member => ?_
    have inside := mem_range.mp member
    calc q.fill msg (q.slot q.ring.tail + k) = msg.getD (q.slot q.ring.tail + k - q.slot q.ring.tail) 0 :=
          if_pos ⟨by omega, Nat.add_lt_add_left inside _⟩
      _ = msg.getD k 0 := by rw [Nat.add_sub_cancel_left]
  · rw [update_of_ne same]
    refine map_congr_left fun k member => ?_
    exact if_neg (fits.slots_apart same (mem_range.mp member))

theorem Fits.messages_fill (fits : q.Fits) (room : q.ring.len < q.maxMessages) {msg : List Byte}
    (short : msg.length ≤ q.messageSize) :
    ({ q with buf := q.fill msg, ring := q.ring.push room } : Msgq).messages =
      q.messages ++ [pad q.messageSize msg] := by
  rw [messages, fits.message_fill room short]
  exact q.ring.window_push room q.message (pad q.messageSize msg)

theorem messages_pop (q : Msgq) (occupied : 0 < q.ring.len) : q.messages =
      q.message q.ring.head :: ({ q with ring := q.ring.pop occupied } : Msgq).messages :=
  q.ring.window_pop occupied q.message

theorem Fits.load_eq (fits : q.Fits) (size : Nat) : q.load (min size q.messageSize) =
      .ok ((q.message q.ring.head).take (min size q.messageSize)) := by
  have inside := fits.slot_inside q.ring.head
  have bound : q.slot q.ring.head + min size q.messageSize ≤ q.capacity := by omega
  rw [load, message, ← map_take, take_range, min_eq_left (min_le_right _ _)]
  exact if_pos bound

end Msgq

/-! ## First in, first out -/

structure MsgqThreads.Explained {T : Type} (origin : Msgq) (s : MsgqThreads T) : Prop where
  shape : origin.SameShape s.queue
  isOpen : s.queue.closing = false
  waiting : ∀ t call, s.thread t = .waiting call → 0 < call.size
  logged : FifoLog origin.maxMessages origin.messageSize origin.messages s.log s.queue.messages

namespace MsgqThreads.Explained
variable {T : Type} {origin : Msgq} {s : MsgqThreads T}

theorem send (explained : Explained origin s) (fits : origin.Fits) (msg : List Byte) :
    ∃ ret q, msgqSend s.queue (.ok msg) msg.length = .ok (ret, q) ∧
      Explained origin { s with queue := q, log := s.log ++ [.sent (some msg) ret] } := by
  have fits' := fits.of_sameShape explained.shape
  obtain ⟨slots, size, capacity⟩ := explained.shape
  have refused (reason : msg = [] ∨ s.queue.messageSize < msg.length ∨ s.queue.ring.len = s.queue.maxMessages) :
      Explained origin { s with log := s.log ++ [.sent (some msg) (-1)] } := by
    refine ⟨explained.shape, explained.isOpen, explained.waiting, explained.logged.snoc (.refuse ?_)⟩
    intro bytes same
    cases same
    rwa [Msgq.length_messages, ← slots, ← size]
  unfold msgqSend
  split
  · next empty => exact ⟨_, _, rfl, refused (.inl (length_eq_zero_iff.mp empty))⟩
  split
  · next long => exact ⟨_, _, rfl, refused (.inr (.inl long))⟩
  rw [if_neg (by simp [explained.isOpen])]
  split
  · next nonempty long room =>
      have short := not_lt.mp long
      rw [if_pos (fits'.slot_inside s.queue.ring.tail)]
      refine ⟨_, _, rfl, explained.shape, explained.isOpen, explained.waiting, ?_⟩
      refine explained.logged.snoc ?_
      rw [fits'.messages_fill room short, size]
      refine .accept (fun nil => nonempty (by rw [nil]; rfl)) (by omega) ?_
      rwa [Msgq.length_messages, ← slots]
  · next full =>
      have bounded := s.queue.ring.bounded
      exact ⟨_, _, rfl, refused (.inr (.inr (by omega)))⟩

variable [DecidableEq T]

theorem waiting_update (explained : Explained origin s) (t : T) {place : Place Receive}
    (positive : ∀ call, place = .waiting call → 0 < call.size) :
    ∀ t' call, update s.thread t place t' = .waiting call → 0 < call.size := by
  intro t' call waits
  by_cases same : t' = t
  · subst same
    rw [update_self] at waits
    exact positive call waits
  · rw [update_of_ne same] at waits
    exact explained.waiting t' call waits

theorem fail (explained : Explained origin s) (t : T) (call : Receive) : Explained origin (s.fail t call) :=
  ⟨explained.shape, explained.isOpen, explained.waiting_update t nofun, explained.logged.snoc .miss⟩

variable {call : Receive}

theorem wait (explained : Explained origin s) (t : T) (positive : 0 < call.size) :
    Explained origin (s.wait t call) := by
  refine ⟨explained.shape, explained.isOpen, explained.waiting_update t ?_, explained.logged⟩
  rintro _ ⟨⟩
  exact positive

theorem finish (explained : Explained origin s) (fits : origin.Fits) (t : T)
    (positive : 0 < call.size) : ∃ s', s.finish t call = .ok s' ∧ Explained origin s' := by
  have fits' := fits.of_sameShape explained.shape
  obtain ⟨slots, size, capacity⟩ := explained.shape
  unfold MsgqThreads.finish msgqTake
  by_cases occupied : 0 < s.queue.ring.len
  · rw [dif_pos occupied, fits'.load_eq]
    refine ⟨_, rfl, explained.shape, explained.isOpen, explained.waiting_update t nofun, explained.logged.snoc ?_⟩
    have length : (s.queue.message s.queue.ring.head).length = s.queue.messageSize := by
      simp [Msgq.message]
    rw [s.queue.messages_pop occupied, length_take, length, min_eq_left (min_le_right _ _), size]
    exact .deliver _ _ positive
  · rw [dif_neg occupied]
    exact ⟨_, rfl, explained.fail t call⟩

theorem receive (build : Build) (explained : Explained origin s) (fits : origin.Fits) (t : T)
    (call : Receive) (timeoutMs : Size) :
    ∃ s', s.receive build t call timeoutMs = .ok s' ∧ Explained origin s' := by
  unfold MsgqThreads.receive
  split
  · exact ⟨_, rfl, explained.fail t call⟩
  next nonempty =>
    have positive := Nat.pos_of_ne_zero nonempty
    cases build with
    | kernel => exact explained.finish fits t positive
    | hosted =>
      rw [if_neg (by simp [explained.isOpen])]
      split_ifs
      · exact ⟨_, rfl, explained.fail t call⟩
      · exact ⟨_, rfl, explained.wait t positive⟩
      · exact explained.finish fits t positive

theorem resume (explained : Explained origin s) (fits : origin.Fits) (t : T) (positive : 0 < call.size) (rc : Word) :
    ∃ s', s.resume t call rc = .ok s' ∧ Explained origin s' := by
  have left : Explained origin { s with queue := { s.queue with waiters := s.queue.waiters - 1 } } :=
    ⟨explained.shape, explained.isOpen, explained.waiting, explained.logged⟩
  unfold MsgqThreads.resume
  dsimp only
  split_ifs
  · exact ⟨_, rfl, left.fail t call⟩
  · exact ⟨_, rfl, left.wait t positive⟩
  · exact ⟨_, rfl, left.fail t call⟩
  · exact left.finish fits t positive

theorem step (build : Build) (explained : Explained origin s) (fits : origin.Fits) (t : T)
    (action : MsgqAction) : ∃ s', s.step build t action = .ok s' ∧ Explained origin s' := by
  unfold MsgqThreads.step
  split
  · exact ⟨_, rfl, explained.shape, explained.isOpen, explained.waiting, explained.logged.snoc (.refuse nofun)⟩
  · next msg _ =>
      obtain ⟨ret, q, sent, kept⟩ := explained.send fits msg
      exact ⟨_, by rw [sent]; rfl, kept⟩
  · exact ⟨_, rfl, explained.fail t _⟩
  · exact explained.receive build fits t _ _
  · next call rc waits => exact explained.resume fits t (explained.waiting t call waits) rc
  · exact ⟨s, rfl, explained⟩

theorem run (build : Build) (explained : Explained origin s) (fits : origin.Fits) (calls : List (T × MsgqAction)) :
    ∃ s', s.run build calls = .ok s' ∧ Explained origin s' := by
  induction calls generalizing s with
  | nil => exact ⟨s, rfl, explained⟩
  | cons call calls ih =>
    obtain ⟨s₁, stepped, kept⟩ := explained.step build fits call.1 call.2
    obtain ⟨s', ran, kept'⟩ := ih kept
    exact ⟨s', by rw [run, stepped]; exact ran, kept'⟩

end MsgqThreads.Explained

/-- However the sections of the threads follow each other, the accepted messages come out in order and once each. -/
theorem msgq_fifo {T : Type} [DecidableEq T] (build : Build) (q : Msgq) (fits : q.Fits)
    (isOpen : q.closing = false) (calls : List (T × MsgqAction)) :
    ∃ s, (MsgqThreads.start q).run build calls = .ok s ∧ s.queue.messages.length ≤ q.maxMessages ∧
      FifoLog q.maxMessages q.messageSize q.messages s.log s.queue.messages ∧
      ∃ messages, q.messages ++ acceptedMessages q.messageSize s.log = messages ++ s.queue.messages ∧
        Forall₂ (Receipt.Holds q.messageSize) (receipts s.log) messages := by
  have start : MsgqThreads.Explained q (MsgqThreads.start q : MsgqThreads T) := ⟨⟨rfl, rfl, rfl⟩, isOpen, nofun, rfl⟩
  obtain ⟨s, ran, explained⟩ := start.run build fits calls
  refine ⟨s, ran, ?_, explained.logged, explained.logged.delivered⟩
  rw [Msgq.length_messages, ← explained.shape.1]
  exact s.queue.ring.bounded

def smallQueue : Msgq := ⟨2, 3, 6, fun _ => 9, .empty (by decide), false, 0⟩

theorem msgq_fifo_small : ∃ s : MsgqThreads Bool, (MsgqThreads.start smallQueue).run .hosted
        [(true, .receive (some [5, 5, 5]) 3 10), (false, .send (some [1])), (true, .wake 0)] = .ok s ∧
      s.queue.messages.length ≤ 2 ∧
      FifoLog 2 3 smallQueue.messages s.log s.queue.messages ∧
      ∃ messages, smallQueue.messages ++ acceptedMessages 3 s.log = messages ++ s.queue.messages ∧
        Forall₂ (Receipt.Holds 3) (receipts s.log) messages :=
  msgq_fifo .hosted smallQueue ⟨by decide, by decide⟩ rfl _

end Flinstone.Sys
