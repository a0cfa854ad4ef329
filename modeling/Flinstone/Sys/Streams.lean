import Flinstone.Lib.Loop
import Flinstone.Sys.Ipc

/-! # Pipes between threads -/

namespace Flinstone.Sys
open Flinstone.Lib Flinstone.Vm List Function

/-- Whether `__KERNEL__` is defined. -/
inductive Build where
  | hosted | kernel
  deriving DecidableEq

structure PipeFields where
  buf : List Byte
  cap : Nat
  head : Nat
  tail : Nat
  len : Nat
  closing : Bool
  waiters : Nat

namespace PipeFields

def store (p : PipeFields) (b : Byte) : Except Stop PipeFields :=
  if p.tail < p.buf.length then
    .ok { p with buf := p.buf.set p.tail b, tail := (p.tail + 1) % p.cap, len := p.len + 1 }
  else .error (.heap p.tail 1)

def fetch (p : PipeFields) : Except Stop (Byte × PipeFields) :=
  match p.buf[p.head]? with
  | some b => .ok (b, { p with head := (p.head + 1) % p.cap, len := p.len - 1 })
  | none => .error (.heap p.head 1)

def writeLoop (p : PipeFields) : List Byte → Except Stop (Nat × PipeFields)
  | [] => .ok (0, p)
  | b :: src =>
    if p.len < p.cap then do
      let p ← p.store b
      let (written, p) ← writeLoop p src
      return (written + 1, p)
    else .ok (0, p)

def readLoop (p : PipeFields) : Nat → Except Stop (List Byte × PipeFields)
  | 0 => .ok ([], p)
  | count + 1 =>
    if p.len > 0 then do
      let (b, p) ← p.fetch
      let (bytes, p) ← readLoop p count
      return (b :: bytes, p)
    else .ok ([], p)

def writeSection (build : Build) (p : PipeFields) (src : List Byte) : Except Stop (Size × PipeFields) :=
  if build = .hosted && p.closing then .ok (-1, p)
  else do
    let (written, p) ← p.writeLoop src
    return (BitVec.ofNat 64 written, p)

/-- How a pass of `pipe_read` under the lock ends; no bytes are the return value `-1`. -/
inductive Outcome where
  | waits
  | returns (bytes : Option (List Byte))

def readSection (build : Build) (p : PipeFields) (count : Nat) : Except Stop (Outcome × PipeFields) :=
  if build = .hosted && p.len == 0 && !p.closing then
    .ok (.waits, { p with waiters := p.waiters + 1 })
  else if p.len = 0 then .ok (.returns none, p)
  else do
    let (bytes, p) ← p.readLoop count
    return (.returns (some bytes), p)

def contents (p : PipeFields) : List Byte := (List.range p.len).map fun i => p.buf.getD ((p.head + i) % p.cap) 0

end PipeFields

/-- A thread is outside, or in the condition wait of a call with the arguments `C`. -/
inductive Place (C : Type) where
  | outside
  | waiting (call : C)

inductive PipeEvent where
  | wrote (src : List Byte) (ret : Size)
  | read (dst : List Byte) (ret : Size)

structure PipeThreads (T : Type) where
  pipe : PipeFields
  thread : T → Place Nat
  log : List PipeEvent

/-- A pointer is `none` or `false` if it is `NULL`. -/
inductive PipeAction where
  | write (buf : Option (List Byte))
  | read (buf : Bool) (count : Nat)
  | wake

namespace PipeThreads
variable {T : Type} [DecidableEq T]

def start (p : PipeFields) : PipeThreads T := ⟨p, fun _ => .outside, []⟩

def record (s : PipeThreads T) (event : PipeEvent) : PipeThreads T := { s with log := s.log ++ [event] }

def pass (build : Build) (s : PipeThreads T) (t : T) (p : PipeFields) (count : Nat) : Except Stop (PipeThreads T) := do
  match ← p.readSection build count with
  | (.waits, p) => return { s with pipe := p, thread := update s.thread t (.waiting count) }
  | (.returns bytes, p) =>
    let ret := match bytes with
      | none => -1
      | some bytes => BitVec.ofNat 64 bytes.length
    return { s with pipe := p, thread := update s.thread t .outside }.record (.read (bytes.getD []) ret)

def step (build : Build) (s : PipeThreads T) (t : T) (action : PipeAction) : Except Stop (PipeThreads T) :=
  match s.thread t, action with
  | .outside, .write (some (b :: src)) => do
      let (ret, p) ← s.pipe.writeSection build (b :: src)
      return { s with pipe := p }.record (.wrote (b :: src) ret)
  | .outside, .write _ => .ok (s.record (.wrote [] (-1)))
  | .outside, .read buf count =>
    if !buf || count = 0 then .ok (s.record (.read [] (-1)))
    else s.pass build t s.pipe count
  | .waiting count, .wake => s.pass build t { s.pipe with waiters := s.pipe.waiters - 1 } count
  | _, _ => .ok s

def run (build : Build) (s : PipeThreads T) : List (T × PipeAction) → Except Stop (PipeThreads T)
  | [] => .ok s
  | (t, action) :: rest => s.step build t action >>= fun s => run build s rest

def accepted (s : PipeThreads T) : List Byte :=
  s.log.flatMap fun
    | .wrote src ret => src.take ret.toNat
    | .read _ _ => []

def delivered (s : PipeThreads T) : List Byte :=
  s.log.flatMap fun
    | .wrote _ _ => []
    | .read dst ret => dst.take ret.toNat

end PipeThreads

/-! ## The fields of a ring -/

def bytesAt (src : List Byte) (i : Nat) : Except Stop Byte :=
  match src[i]? with
  | some b => .ok b
  | none => .error (.pointer i 1)

namespace Pipe

def contents (p : Pipe) : List Byte := p.ring.window p.buf

def fields (p : Pipe) : PipeFields where
  buf := List.ofFn p.buf
  cap := p.cap
  head := p.ring.head
  tail := p.ring.tail
  len := p.ring.len
  closing := p.closing
  waiters := p.waiters

variable (p : Pipe)

theorem fields_contents : p.fields.contents = p.contents := by
  have positive : 0 < p.cap := Fin.pos p.ring.head
  refine map_congr_left fun i _ => ?_
  have inside : (p.ring.head.val + i) % p.cap < p.cap := Nat.mod_lt _ positive
  simp [fields, Ring.place, inside]

theorem fields_store (b : Byte) (room : p.ring.len < p.cap) :
    p.fields.store b = .ok (p.put b room).fields := by
  have inside : p.fields.tail < p.fields.buf.length := by simp [fields]
  have written : (ofFn p.buf).set p.ring.tail b = ofFn (update p.buf p.ring.tail b) := by
    apply ext_getElem
    · simp
    · intro i bound bound'
      simp only [getElem_set, List.getElem_ofFn, update_apply, Fin.ext_iff, eq_comm]
  rw [PipeFields.store, if_pos inside]
  simp [fields, put, Ring.push, advance, written]

theorem fields_fetch (occupied : 0 < p.ring.len) :
    p.fields.fetch = .ok (p.buf p.ring.head, (p.drop occupied).fields) := by
  have found : (ofFn p.buf)[p.ring.head.val]? = some (p.buf p.ring.head) := by simp
  simp only [PipeFields.fetch, fields, found]
  rfl

@[simp] theorem contents_put (b : Byte) (room : p.ring.len < p.cap) :
    (p.put b room).contents = p.contents ++ [b] :=
  p.ring.window_push room p.buf b

theorem contents_drop (occupied : 0 < p.ring.len) :
    p.contents = p.buf p.ring.head :: (p.drop occupied).contents :=
  p.ring.window_pop occupied p.buf

structure Alike (p p' : Pipe) : Prop where
  cap : p'.cap = p.cap
  closing : p'.closing = p.closing

theorem fields_writeLoop (front src : List Byte) :
    ∃ p' : Pipe, ∃ written ≤ src.length, p.fields.writeLoop src = .ok (written, p'.fields) ∧
      pipePut (bytesAt (front ++ src)) p front.length src.length = .ok (p', front.length + written) ∧
      p'.contents = p.contents ++ src.take written ∧ p.Alike p' := by
  induction src generalizing p front with
  | nil => exact ⟨p, 0, le_rfl, rfl, rfl, by simp, rfl, rfl⟩
  | cons b src ih =>
    by_cases room : p.ring.len < p.cap
    · obtain ⟨p', written, short, looped, put, contents, cap, closing⟩ := ih (p.put b room) (front ++ [b])
      have first : bytesAt (front ++ b :: src) front.length = .ok b := by simp [bytesAt]
      refine ⟨p', written + 1, by simpa using short, ?_, ?_, ?_, cap, closing⟩
      · rw [PipeFields.writeLoop, if_pos (show p.fields.len < p.fields.cap from room), p.fields_store b room]
        simp only [bind, Except.bind, looped]
        rfl
      · simp only [append_assoc, singleton_append, length_append, length_singleton] at put
        rw [length_cons, pipePut, dif_pos room, first]
        simp only [put, add_comm written 1, add_assoc]
      · simp [contents]
    · refine ⟨p, 0, Nat.zero_le _, ?_, ?_, by simp, rfl, rfl⟩
      · exact if_neg (show ¬ p.fields.len < p.fields.cap from room)
      · rw [length_cons, pipePut, dif_neg room, add_zero]

theorem fields_readLoop (count : Nat) :
    p.fields.readLoop count = .ok ((pipeTake p count).2, (pipeTake p count).1.fields) := by
  induction count generalizing p with
  | zero => rfl
  | succ count ih =>
    unfold PipeFields.readLoop pipeTake
    by_cases occupied : 0 < p.ring.len
    · rw [if_pos (show p.fields.len > 0 from occupied), dif_pos occupied, p.fields_fetch occupied]
      simp only [bind, Except.bind, ih]
      rfl
    · rw [if_neg (show ¬ p.fields.len > 0 from occupied), dif_neg occupied]

theorem pipeTake_contents (count : Nat) :
    p.contents = (pipeTake p count).2 ++ (pipeTake p count).1.contents ∧ p.Alike (pipeTake p count).1 := by
  induction count generalizing p with
  | zero => exact ⟨rfl, rfl, rfl⟩
  | succ count ih =>
    unfold pipeTake
    split
    · next occupied =>
        obtain ⟨contents, cap, closing⟩ := ih (p.drop occupied)
        exact ⟨by simp [p.contents_drop occupied, ← contents], cap, closing⟩
    · exact ⟨rfl, rfl, rfl⟩

theorem length_contents_le : p.contents.length ≤ p.cap := by
  rw [contents, Ring.length_window]
  exact p.ring.bounded

end Pipe

/-! ## Sections and whole calls -/

theorem writeSection_eq (p : Pipe) {src : List Byte} (nonempty : src ≠ []) : p.fields.writeSection .hosted src =
      (pipeWrite p (bytesAt src) src.length).map fun r => (r.1, r.2.fields) := by
  obtain ⟨p', written, -, looped, put, -, -⟩ := p.fields_writeLoop [] src
  simp only [nil_append, length_nil, zero_add] at put
  unfold PipeFields.writeSection pipeWrite
  rw [if_neg (length_pos_iff.mpr nonempty).ne', put, looped]
  cases closing : p.closing with
  | true => simp [Pipe.fields, closing, Except.map]
  | false => simp [Pipe.fields, closing, Except.map, bind, Except.bind, pure, Except.pure]

theorem readSection_eq {W : Type} (env : Env W) (p : Pipe) {count : Nat} (positive : count ≠ 0)
    (ready : p.starved = false) (w : W) :
    (p.fields.readSection .hosted count).map (fun r => (r.1, r.2, w)) =
      (pipeRead env p count w).map fun r => (.returns r.1, r.2.1.fields, r.2.2) := by
  unfold PipeFields.readSection pipeRead
  rw [if_neg positive, p.fields_readLoop count]
  simp only [ready, Bool.false_eq_true, if_false, awaitReadable]
  simp only [Pipe.starved, Bool.and_eq_false_iff, Bool.not_eq_false'] at ready
  by_cases empty : p.ring.len = 0
  · have closing : p.closing = true := by simpa [empty] using ready
    simp [Pipe.fields, empty, closing, Except.map]
  · simp [Pipe.fields, empty, Except.map, bind, Except.bind, pure, Except.pure]

theorem sections_eq_calls {W : Type} (env : Env W) (p : Pipe) {src : List Byte} (nonempty : src ≠ []) {count : Nat}
    (positive : count ≠ 0) (ready : p.starved = false) (w : W) :
    p.fields.writeSection .hosted src = (pipeWrite p (bytesAt src) src.length).map (fun r => (r.1, r.2.fields)) ∧
      (p.fields.readSection .hosted count).map (fun r => (r.1, r.2, w)) =
        (pipeRead env p count w).map fun r => (.returns r.1, r.2.1.fields, r.2.2) :=
  ⟨writeSection_eq p nonempty, readSection_eq env p positive ready w⟩

theorem sections_of_closing : let p : Pipe := ⟨4, fun _ => 0, .empty (Nat.succ_pos 3), true, 0⟩
    p.fields.writeSection .hosted [1] = (pipeWrite p (bytesAt [1]) 1).map fun r => (r.1, r.2.fields) :=
  (sections_eq_calls idleHost _ (cons_ne_nil 1 []) one_ne_zero rfl ()).1

/-! ## First in, first out -/

namespace PipeThreads
variable {T : Type}

variable (s : PipeThreads T)

@[simp] theorem accepted_wrote (src : List Byte) (ret : Size) :
    (s.record (.wrote src ret)).accepted = s.accepted ++ src.take ret.toNat := by
  simp [record, accepted]

@[simp] theorem accepted_read (dst : List Byte) (ret : Size) :
    (s.record (.read dst ret)).accepted = s.accepted := by
  simp [record, accepted]

@[simp] theorem delivered_wrote (src : List Byte) (ret : Size) :
    (s.record (.wrote src ret)).delivered = s.delivered := by
  simp [record, delivered]

@[simp] theorem delivered_read (dst : List Byte) (ret : Size) :
    (s.record (.read dst ret)).delivered = s.delivered ++ dst.take ret.toNat := by
  simp [record, delivered]

structure Conserves (cap : Nat) (s : PipeThreads T) (p : Pipe) : Prop where
  fields : s.pipe = p.fields
  cap : p.cap = cap
  isOpen : p.closing = false
  stream : s.accepted = s.delivered ++ p.contents

variable [DecidableEq T] (build : Build) {cap : Nat} {s : PipeThreads T} {p : Pipe}

omit [DecidableEq T] in
theorem Conserves.write (conserves : Conserves cap s p) (small : cap < 2 ^ 64) (src : List Byte) :
    ∃ ret p₁ p', s.pipe.writeSection build src = .ok (ret, p₁) ∧
      Conserves cap ({ s with pipe := p₁ }.record (.wrote src ret)) p' := by
  obtain ⟨p', written, short, looped, -, contents, sameCap, sameClosing⟩ := p.fields_writeLoop [] src
  have isOpen := conserves.isOpen
  refine ⟨BitVec.ofNat 64 written, p'.fields, p', ?_, rfl, sameCap.trans conserves.cap, sameClosing.trans isOpen, ?_⟩
  · rw [conserves.fields, PipeFields.writeSection, looped]
    simp [Pipe.fields, isOpen, bind, Except.bind, pure, Except.pure]
  · -- no more was written than fits the pipe, so the return value counts it
    have fits := p'.length_contents_le
    rw [contents, sameCap, conserves.cap, length_append, length_take] at fits
    have count : (BitVec.ofNat 64 written).toNat = written := by
      rw [BitVec.toNat_ofNat]
      exact Nat.mod_eq_of_lt (by omega)
    rw [accepted_wrote, delivered_wrote, count, contents, ← append_assoc]
    exact congrArg (· ++ src.take written) conserves.stream

theorem Conserves.pass (conserves : Conserves cap s p) (small : cap < 2 ^ 64) (t : T) (count : Nat) :
    ∃ s' p', s.pass build t s.pipe count = .ok s' ∧ Conserves cap s' p' := by
  have isOpen := conserves.isOpen
  rw [PipeThreads.pass, PipeFields.readSection, conserves.fields, p.fields_readLoop count]
  split_ifs with waits empty
  · exact ⟨_, { p with waiters := p.waiters + 1 }, rfl, rfl, conserves.cap, isOpen, conserves.stream⟩
  · refine ⟨_, p, rfl, rfl, conserves.cap, isOpen, ?_⟩
    rw [accepted_read, delivered_read, Option.getD_none, take_nil, append_nil]
    exact conserves.stream
  · obtain ⟨contents, sameCap, sameClosing⟩ := p.pipeTake_contents count
    refine ⟨_, (pipeTake p count).1, rfl, rfl, sameCap.trans conserves.cap, sameClosing.trans isOpen, ?_⟩
    have fits := p.length_contents_le
    rw [contents, conserves.cap, length_append] at fits
    have all : (BitVec.ofNat 64 (pipeTake p count).2.length).toNat = (pipeTake p count).2.length := by
      exact Nat.mod_eq_of_lt (by omega)
    rw [accepted_read, delivered_read, Option.getD_some, all, take_length, append_assoc, ← contents]
    exact conserves.stream

theorem Conserves.step (conserves : Conserves cap s p) (small : cap < 2 ^ 64) (t : T)
    (action : PipeAction) : ∃ s' p', s.step build t action = .ok s' ∧ Conserves cap s' p' := by
  have refused (event : PipeEvent) (nothing : event = .wrote [] (-1) ∨ event = .read [] (-1)) :
      Conserves cap (s.record event) p := by
    refine ⟨conserves.fields, conserves.cap, conserves.isOpen, ?_⟩
    rcases nothing with rfl | rfl <;> simpa using conserves.stream
  unfold PipeThreads.step
  split
  · next b src _ =>
      obtain ⟨ret, p₁, p', written, kept⟩ := conserves.write build small (b :: src)
      exact ⟨_, p', by rw [written]; rfl, kept⟩
  · exact ⟨_, p, rfl, refused _ (.inl rfl)⟩
  · split_ifs
    · exact ⟨_, p, rfl, refused _ (.inr rfl)⟩
    · exact conserves.pass build small t _
  · next count _ =>
      have left : Conserves cap { s with pipe := { s.pipe with waiters := s.pipe.waiters - 1 } }
          { p with waiters := p.waiters - 1 } :=
        ⟨by simp [conserves.fields, Pipe.fields], conserves.cap, conserves.isOpen, conserves.stream⟩
      exact left.pass build small t count
  · exact ⟨s, p, rfl, conserves⟩

theorem Conserves.run (conserves : Conserves cap s p) (small : cap < 2 ^ 64) (calls : List (T × PipeAction)) :
    ∃ s' p', s.run build calls = .ok s' ∧ Conserves cap s' p' := by
  induction calls generalizing s p with
  | nil => exact ⟨s, p, rfl, conserves⟩
  | cons call calls ih =>
    obtain ⟨s₁, p₁, stepped, kept⟩ := conserves.step build small call.1 call.2
    obtain ⟨s', p', ran, kept'⟩ := ih kept
    exact ⟨s', p', by rw [run, stepped]; exact ran, kept'⟩

end PipeThreads

theorem pipeCreate_fields {W : Type} {env : Env W} {size : Size} {w w' : W} {p : Pipe}
    (created : pipeCreate env size w = (some p, w')) :
    p.cap = size.toNat ∧ p.ring.len = 0 ∧ p.closing = false := by
  unfold pipeCreate at created
  repeat' split at created
  all_goals simp only [Prod.mk.injEq, Option.some.injEq, reduceCtorEq, false_and] at created
  obtain ⟨rfl, -⟩ := created
  exact ⟨rfl, rfl, rfl⟩

/-- However the sections of the threads follow each other, the accepted bytes are those delivered and the contents. -/
theorem pipe_fifo {W T : Type} [DecidableEq T] (build : Build) (env : Env W) (size : Size) (w w' : W)
    (p : Pipe) (created : pipeCreate env size w = (some p, w')) (memory : Fin p.cap → Byte)
    (calls : List (T × PipeAction)) :
    ∃ s, (PipeThreads.start { p with buf := memory }.fields).run build calls = .ok s ∧
      s.pipe.cap = size.toNat ∧ s.pipe.buf.length = s.pipe.cap ∧ s.pipe.len ≤ s.pipe.cap ∧
      s.pipe.tail = (s.pipe.head + s.pipe.len) % s.pipe.cap ∧
      s.accepted = s.delivered ++ s.pipe.contents := by
  obtain ⟨cap, empty, isOpen⟩ := pipeCreate_fields created
  have start : PipeThreads.Conserves size.toNat (PipeThreads.start { p with buf := memory }.fields : PipeThreads T)
      { p with buf := memory } := by
    refine ⟨rfl, cap, isOpen, ?_⟩
    rw [Pipe.contents, Ring.window, empty]
    rfl
  obtain ⟨s, p', ran, kept⟩ := start.run build size.isLt calls
  refine ⟨s, ran, ?_⟩
  rw [kept.fields, p'.fields_contents]
  exact ⟨kept.cap, length_ofFn, p'.ring.bounded, p'.ring.balanced, kept.stream⟩

theorem pipe_fifo_two : ∃ s : PipeThreads Bool, (PipeThreads.start
        { (⟨2, fun _ => 0, .empty (by decide), false, 0⟩ : Pipe) with buf := fun _ => 7 }.fields).run
          .hosted [(true, .read true 1), (false, .write (some [1, 2, 3])), (true, .wake)] = .ok s ∧
      s.pipe.cap = (2 : Size).toNat ∧ s.pipe.buf.length = s.pipe.cap ∧ s.pipe.len ≤ s.pipe.cap ∧
      s.pipe.tail = (s.pipe.head + s.pipe.len) % s.pipe.cap ∧
      s.accepted = s.delivered ++ s.pipe.contents :=
  pipe_fifo .hosted idleHost 2 () () ⟨2, fun _ => 0, .empty (by decide), false, 0⟩ rfl (fun _ => 7) _

end Flinstone.Sys
