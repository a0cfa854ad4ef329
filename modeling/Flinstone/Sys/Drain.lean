import Flinstone.Lib.Fair
import Flinstone.Sys.Syscall
import Mathlib.Algebra.BigOperators.Group.Finset.Piecewise
import Mathlib.Algebra.Order.BigOperators.Group.Finset
import Mathlib.Data.Fintype.BigOperators
import Mathlib.Order.Filter.Finite

/-!
# Destroying an object that threads wait on

`pipe_destroy` and `msgq_destroy` against `n` threads in a condition wait, line by line.
-/

namespace Flinstone.Sys
open Flinstone.Lib Flinstone.Vm Function Option

namespace Object

def len : Object → Nat
  | pipe p => p.ring.len
  | msgq q => q.ring.len

def closing : Object → Bool
  | pipe p => p.closing
  | msgq q => q.closing

def waiters : Object → Nat
  | pipe p => p.waiters
  | msgq q => q.waiters

def close : Object → Object
  | pipe p => pipe { p with closing := true }
  | msgq q => msgq { q with closing := true }

def setWaiters (waiters : Nat) : Object → Object
  | pipe p => pipe { p with waiters }
  | msgq q => msgq { q with waiters }

/-- The object after `count` bytes, or one message, were copied out of its buffer. -/
def take (count : Nat) : Object → Object
  | pipe p => pipe (pipeTake p count).1
  | msgq q => if occupied : 0 < q.ring.len then msgq { q with ring := q.ring.pop occupied } else msgq q

variable (o : Object)

@[simp] theorem closing_close : o.close.closing = true := by cases o <;> rfl
@[simp] theorem waiters_close : o.close.waiters = o.waiters := by cases o <;> rfl
@[simp] theorem closing_setWaiters (k : Nat) : (o.setWaiters k).closing = o.closing := by cases o <;> rfl
@[simp] theorem waiters_setWaiters (k : Nat) : (o.setWaiters k).waiters = k := by cases o <;> rfl

theorem pipeTake_keeps (p : Pipe) (count : Nat) :
    (pipeTake p count).1.closing = p.closing ∧ (pipeTake p count).1.waiters = p.waiters := by
  induction count generalizing p with
  | zero => exact ⟨rfl, rfl⟩
  | succ count ih =>
    unfold pipeTake
    split
    · next occupied => exact ih (p.drop occupied)
    · exact ⟨rfl, rfl⟩

@[simp] theorem closing_take (count : Nat) : (o.take count).closing = o.closing := by
  cases o with
  | pipe p => exact (pipeTake_keeps p count).1
  | msgq q =>
    simp only [take]
    split <;> rfl

@[simp] theorem waiters_take (count : Nat) : (o.take count).waiters = o.waiters := by
  cases o with
  | pipe p => exact (pipeTake_keeps p count).2
  | msgq q =>
    simp only [take]
    split <;> rfl

end Object

/-! ## Places in the code -/

inductive Part where
  | mutex | canRead | canWrite | drain | fields | buffer
  deriving DecidableEq

/-- `rc` is what the wait returned; `pipe_read` does not look at it. -/
inductive ReaderPc where
  /-- Asleep in `pthread_cond_wait` or `pthread_cond_timedwait`. -/
  | blocked
  | woken (rc : Word)
  /-- `waiters--` -/
  | leaving (rc : Word)
  /-- `pthread_cond_signal(&drain)` -/
  | signalling (rc : Word)
  | deciding (rc : Word)
  /-- `waiters++` -/
  | entering
  | resting
  | copying
  /-- `pthread_cond_broadcast(&can_write)` -/
  | announcing
  | unlocking
  | returned
  deriving DecidableEq

inductive DestroyerPc where
  | locking
  /-- `closing = 1` -/
  | closing
  | wakingReaders
  /-- `pthread_cond_broadcast(&can_write)` -/
  | wakingWriters
  /-- `while (waiters > 0)` -/
  | testing
  /-- Asleep in `pthread_cond_wait(&drain, &mu)`. -/
  | draining
  | drained
  | unlocking
  | destroyMutex
  | destroyCanRead
  | destroyCanWrite
  | destroyDrain
  | freeBuf
  | freeObject
  | returned
  deriving DecidableEq

namespace ReaderPc

def holds : ReaderPc → Bool
  | blocked | woken _ | returned => false
  | leaving _ | signalling _ | deciding _ | entering | resting | copying | announcing | unlocking => true

def counted : ReaderPc → Nat
  | blocked | woken _ | leaving _ | resting => 1
  | signalling _ | deciding _ | entering | copying | announcing | unlocking | returned => 0

def restless : ReaderPc → Bool
  | entering | resting => true
  | blocked | woken _ | leaving _ | signalling _ | deciding _ | copying | announcing | unlocking
  | returned => false

/-- What the thread uses in its next step; a thread asleep needs the variable it sleeps on. -/
def touches : ReaderPc → List Part
  | blocked => [.canRead]
  | woken _ => [.canRead, .mutex]
  | leaving _ | deciding _ | entering => [.fields]
  | signalling _ => [.drain]
  | resting => [.canRead, .mutex]
  | copying => [.fields, .buffer]
  | announcing => [.canWrite]
  | unlocking => [.mutex]
  | returned => []

def rank : ReaderPc → Nat
  | returned => 0
  | unlocking => 1
  | announcing => 2
  | copying => 3
  | resting => 3
  | entering => 4
  | deciding _ => 5
  | signalling _ => 6
  | leaving _ => 7
  | woken _ => 8
  | blocked => 9

end ReaderPc

namespace DestroyerPc

def holds : DestroyerPc → Bool
  | closing | wakingReaders | wakingWriters | testing | unlocking => true
  | _ => false

def closed : DestroyerPc → Bool
  | locking | closing => false
  | _ => true

def broadcast : DestroyerPc → Bool
  | locking | closing | wakingReaders => false
  | _ => true

def leaving : DestroyerPc → Bool
  | unlocking | destroyMutex | destroyCanRead | destroyCanWrite | destroyDrain | freeBuf | freeObject
  | returned => true
  | _ => false

def touches : DestroyerPc → List Part
  | locking | unlocking | destroyMutex => [.mutex]
  | closing => [.fields]
  | wakingReaders | destroyCanRead => [.canRead]
  | wakingWriters | destroyCanWrite => [.canWrite]
  | testing => [.fields, .drain, .mutex]
  | draining | destroyDrain => [.drain]
  | drained => [.drain, .mutex]
  | freeBuf => [.fields, .buffer]
  | freeObject => [.fields]
  | returned => []

def dead : DestroyerPc → List Part
  | destroyCanRead => [.mutex]
  | destroyCanWrite => [.canRead, .mutex]
  | destroyDrain => [.canWrite, .canRead, .mutex]
  | freeBuf => [.drain, .canWrite, .canRead, .mutex]
  | freeObject => [.buffer, .drain, .canWrite, .canRead, .mutex]
  | returned => [.fields, .buffer, .drain, .canWrite, .canRead, .mutex]
  | _ => []

def rank : DestroyerPc → Nat
  | returned => 0
  | freeObject => 1
  | freeBuf => 2
  | destroyDrain => 3
  | destroyCanWrite => 4
  | destroyCanRead => 5
  | destroyMutex => 6
  | unlocking => 7
  | testing => 8
  | drained => 9
  | draining => 10
  | wakingWriters => 11
  | wakingReaders => 12
  | closing => 13
  | locking => 14

end DestroyerPc

inductive Thread (n : Nat) where
  | destroyer
  | reader (i : Fin n)
  deriving DecidableEq

structure Drain (n : Nat) where
  object : Object
  holder : Option (Thread n)
  dead : List Part
  destroyer : DestroyerPc
  reader : Fin n → ReaderPc

/-- The tests between the wait and the copy. `msgq_receive` gives up on any error of the wait. -/
def Object.decide (rc : Word) (o : Object) : ReaderPc :=
  let waited : ReaderPc :=
    if o.len == 0 && !o.closing then .entering
    else if o.closing && o.len == 0 then .unlocking
    else .copying
  match o with
  | .pipe _ => waited
  | .msgq _ => if rc ≠ 0 then .unlocking else waited

namespace Drain
variable {n : Nat}

def acquire (s : Drain n) (t : Thread n) : Option (Drain n) :=
  if s.holder.isNone then some { s with holder := some t } else none

def release (s : Drain n) : Drain n := { s with holder := none }

def goto (s : Drain n) (i : Fin n) (pc : ReaderPc) : Drain n := { s with reader := update s.reader i pc }

def setWaiters (s : Drain n) (waiters : Nat) : Drain n := { s with object := s.object.setWaiters waiters }

def kill (s : Drain n) (part : Part) (pc : DestroyerPc) : Drain n := { s with dead := part :: s.dead, destroyer := pc }

def wakeAll (s : Drain n) : Drain n :=
  { s with reader := fun i => if s.reader i = .blocked then .woken 0 else s.reader i }

def signalDrain (s : Drain n) : Drain n := if s.destroyer = .draining then { s with destroyer := .drained } else s

def destroyerNext (s : Drain n) : Option (Drain n) :=
  match s.destroyer with
  | .locking => (s.acquire .destroyer).map fun s => { s with destroyer := .closing }
  | .closing => some { s with object := s.object.close, destroyer := .wakingReaders }
  | .wakingReaders => some { s.wakeAll with destroyer := .wakingWriters }
  | .wakingWriters => some { s with destroyer := .testing }
  | .testing =>
    some (if s.object.waiters > 0 then { s.release with destroyer := .draining }
      else { s with destroyer := .unlocking })
  | .draining => none
  | .drained => (s.acquire .destroyer).map fun s => { s with destroyer := .testing }
  | .unlocking => some { s.release with destroyer := .destroyMutex }
  | .destroyMutex => some (s.kill .mutex .destroyCanRead)
  | .destroyCanRead => some (s.kill .canRead .destroyCanWrite)
  | .destroyCanWrite => some (s.kill .canWrite .destroyDrain)
  | .destroyDrain => some (s.kill .drain .freeBuf)
  | .freeBuf => some (s.kill .buffer .freeObject)
  | .freeObject => some (s.kill .fields .returned)
  | .returned => none

/-- `request i` is the `count` or `size` of the call. -/
def readerNext (request : Fin n → Nat) (s : Drain n) (i : Fin n) : Option (Drain n) :=
  match s.reader i with
  | .blocked => none
  | .woken rc => (s.acquire (.reader i)).map fun s => s.goto i (.leaving rc)
  | .leaving rc => some ((s.setWaiters (s.object.waiters - 1)).goto i (.signalling rc))
  | .signalling rc => some (s.signalDrain.goto i (.deciding rc))
  | .deciding rc => some (s.goto i (s.object.decide rc))
  | .entering => some ((s.setWaiters (s.object.waiters + 1)).goto i .resting)
  | .resting => some (s.release.goto i .blocked)
  | .copying => some ({ s with object := s.object.take (request i) }.goto i .announcing)
  | .announcing => some (s.goto i .unlocking)
  | .unlocking => some (s.release.goto i .returned)
  | .returned => none

inductive WakesUp (s : Drain n) : Drain n → Prop
  | reader (i : Fin n) (rc : Word) (asleep : s.reader i = .blocked) : WakesUp s (s.goto i (.woken rc))
  | destroyer (asleep : s.destroyer = .draining) : WakesUp s { s with destroyer := .drained }

def system (request : Fin n → Nat) : System (Drain n) (Thread n) where
  step
    | .destroyer, s, s' => s.destroyerNext = some s'
    | .reader i, s, s' => s.readerNext request i = some s'
  env := WakesUp

def touches (s : Drain n) : Thread n → List Part
  | .destroyer => s.destroyer.touches
  | .reader i => (s.reader i).touches

def holds (s : Drain n) : Thread n → Bool
  | .destroyer => s.destroyer.holds
  | .reader i => (s.reader i).holds

/-! ## What every state satisfies -/

structure Sound (s : Drain n) : Prop where
  held : ∀ t, s.holds t = true ↔ s.holder = some t
  counted : s.object.waiters = ∑ i, (s.reader i).counted
  closed : s.object.closing = s.destroyer.closed
  calm : s.destroyer.closed = true → ∀ i, (s.reader i).restless = false
  awake : s.destroyer.broadcast = true → ∀ i, s.reader i ≠ .blocked
  signalled : s.destroyer = .draining → 0 < s.object.waiters ∨ ∃ i rc, s.reader i = .signalling rc
  gone : s.destroyer.leaving = true → ∀ i, s.reader i = .returned
  dead : s.dead = s.destroyer.dead

end Drain

theorem sum_update {n : Nat} {α : Type} (weight : α → Nat) (f : Fin n → α) (i : Fin n) (a : α) :
    ∑ j, weight (update f i a j) + weight (f i) = ∑ j, weight (f j) + weight a := by
  have moved (j : Fin n) : weight (update f i a j) =
      update (fun j => weight (f j)) i (weight a) j := by
    rw [update_apply, update_apply]
    split <;> rfl
  simp only [moved]
  rw [Finset.sum_update_of_mem (Finset.mem_univ i),
    Finset.sum_eq_add_sum_sdiff_singleton_of_mem (Finset.mem_univ i) fun j => weight (f j)]
  omega

namespace ReaderPc

theorem returned_of_idle {pc : ReaderPc} (free : pc.holds = false) (uncounted : pc.counted = 0) : pc = returned := by
  cases pc with
  | returned => rfl
  | blocked | woken => exact absurd uncounted one_ne_zero
  | _ => exact absurd free nofun

theorem holds_of_restless {pc : ReaderPc} (restless : pc.restless = true) : pc.holds = true := by
  cases pc <;> first | rfl | cases restless

end ReaderPc

theorem DestroyerPc.closed_of_leaving {pc : DestroyerPc} (leaving : pc.leaving = true) : pc.closed = true := by
  cases pc <;> first | rfl | cases leaving

theorem DestroyerPc.closed_of_broadcast {pc : DestroyerPc} (broadcast : pc.broadcast = true) : pc.closed = true := by
  cases pc <;> first | rfl | cases broadcast

namespace Drain
variable {n : Nat}

namespace Sound
variable {s : Drain n}
variable {t : Thread n} {i : Fin n} {pc : ReaderPc} {s' : Drain n} {request : Fin n → Nat}

theorem only_holder (sound : Sound s) (holds : s.holds t = true) {other : Thread n}
    (different : other ≠ t) : s.holds other = false := by
  rw [← Bool.not_eq_true, sound.held, (sound.held t).mp holds]
  simpa using different.symm

theorem free (sound : Sound s) (released : s.holder = none) (t : Thread n) : s.holds t = false := by
  rw [← Bool.not_eq_true, sound.held, released]
  simp

theorem counts (sound : Sound s) (i : Fin n) : (s.reader i).counted ≤ s.object.waiters := by
  rw [sound.counted]
  exact Finset.single_le_sum (f := fun j => (s.reader j).counted) (fun _ _ => Nat.zero_le _) (Finset.mem_univ i)

theorem all_returned (sound : Sound s) (holds : s.destroyer.holds = true)
    (none : s.object.waiters = 0) (i : Fin n) : s.reader i = .returned := by
  have free : s.holds (.reader i) = false := sound.only_holder (t := .destroyer) holds (by simp)
  have uncounted : ∀ j ∈ Finset.univ, (s.reader j).counted = 0 :=
    Finset.sum_eq_zero_iff.mp (sound.counted.symm.trans none)
  exact ReaderPc.returned_of_idle free (uncounted i (Finset.mem_univ i))

theorem waited_for (sound : Sound s) (asleep : s.destroyer = .draining) (quiet : ∀ rc, s.reader i ≠ .signalling rc)
    (mine : s.holder = none ∨ s.holder = some (.reader i)) : 0 < s.object.waiters := by
  rcases sound.signalled asleep with waiting | ⟨j, rc, signalling⟩
  · exact waiting
  · have holds : s.holds (.reader j) = true := by
      rw [holds, signalling]
      rfl
    rw [sound.held] at holds
    rcases mine with free | mine
    · rw [free] at holds
      cases holds
    · rw [mine] at holds
      cases holds
      exact absurd signalling (quiet rc)

theorem move (sound : Sound s) (object : Object) (holder : Option (Thread n)) (active : s.reader i ≠ .returned)
    (held : pc.holds = true ↔ holder = some (.reader i))
    (others : ∀ t ≠ .reader i, s.holds t = true ↔ holder = some t)
    (counted : object.waiters + (s.reader i).counted = s.object.waiters + pc.counted)
    (closing : object.closing = s.object.closing)
    (calm : s.destroyer.closed = true → pc.restless = false)
    (awake : s.destroyer.broadcast = true → pc ≠ .blocked)
    (signalled : s.destroyer = .draining → 0 < object.waiters ∨ ∃ rc, pc = .signalling rc) :
    Sound ({ s with object, holder }.goto i pc) := by
  refine ⟨?_, ?_, closing.trans sound.closed, ?_, ?_, ?_, ?_, sound.dead⟩
  · intro t
    by_cases same : t = .reader i
    · subst same
      simpa [holds, goto] using held
    · have unmoved : ({ s with object, holder }.goto i pc).holds t = s.holds t := by
        cases t with
        | destroyer => rfl
        | reader j => simp [holds, goto, update_of_ne fun eq : j = i => same (eq ▸ rfl)]
      rw [unmoved]
      exact others t same
  · have total := sum_update ReaderPc.counted s.reader i pc
    have before := sound.counted
    simp only [goto]
    omega
  · intro closed j
    by_cases same : j = i
    · subst same
      simpa [goto] using calm closed
    · simpa [goto, update_of_ne same] using sound.calm closed j
  · intro broadcast j
    by_cases same : j = i
    · subst same
      simpa [goto] using awake broadcast
    · simpa [goto, update_of_ne same] using sound.awake broadcast j
  · intro asleep
    refine (signalled asleep).imp id ?_
    rintro ⟨rc, rfl⟩
    exact ⟨i, rc, by simp [goto]⟩
  · intro leaving
    exact absurd (sound.gone leaving i) active

theorem inner (sound : Sound s) (object : Object) (holds : (s.reader i).holds = true) (still : pc.holds = true)
    (counted : object.waiters + (s.reader i).counted = s.object.waiters + pc.counted)
    (closing : object.closing = s.object.closing)
    (calm : s.destroyer.closed = true → pc.restless = false)
    (signalled : s.destroyer = .draining → 0 < object.waiters ∨ ∃ rc, pc = .signalling rc) :
    Sound ({ s with object }.goto i pc) := by
  have mine : s.holder = some (.reader i) := (sound.held (.reader i)).mp holds
  refine sound.move object s.holder ?_ ?_ (fun t _ => sound.held t) counted closing calm ?_ signalled
  · rintro returned
    rw [returned] at holds
    cases holds
  · rw [mine]
    simpa using still
  · rintro - rfl
    cases still

theorem released (sound : Sound s) (holds : (s.reader i).holds = true)
    (quiet : ∀ rc, s.reader i ≠ .signalling rc) (gives : pc.holds = false)
    (counted : (s.reader i).counted = pc.counted)
    (awake : s.destroyer.broadcast = true → pc ≠ .blocked) : Sound (s.release.goto i pc) := by
  have mine : s.holder = some (.reader i) := (sound.held (.reader i)).mp holds
  refine sound.move s.object none ?_ ?_ ?_ (by omega) rfl ?_ awake ?_
  · rintro returned
    rw [returned] at holds
    cases holds
  · simp [gives]
  · intro t different
    simp [sound.only_holder (t := .reader i) holds different]
  · intro closed
    by_contra restless
    have contra := ReaderPc.holds_of_restless (by simpa using restless)
    rw [gives] at contra
    cases contra
  · intro asleep
    exact .inl (sound.waited_for asleep quiet (.inr mine))

theorem acquire_eq (taken : s.acquire t = some s') : s.holder = none ∧ s' = { s with holder := some t } := by
  unfold acquire at taken
  split at taken
  · next free =>
      cases taken
      exact ⟨isNone_iff_eq_none.mp free, rfl⟩
  · cases taken

theorem decide_spec (o : Object) (rc : Word) :
    (o.decide rc).holds = true ∧ (o.decide rc).counted = 0 ∧ (o.decide rc).rank < 5 ∧
      (o.closing = true → (o.decide rc).restless = false) := by
  unfold Object.decide
  cases o <;> dsimp only <;> split_ifs <;> simp_all [ReaderPc.holds, ReaderPc.counted, ReaderPc.rank, ReaderPc.restless]

theorem signal (sound : Sound s) : Sound s.signalDrain ∧ s.signalDrain.destroyer ≠ .draining := by
  unfold signalDrain
  split
  · next asleep =>
      have closed := sound.closed
      have calm := sound.calm
      have awake := sound.awake
      have dead := sound.dead
      have held := sound.held .destroyer
      rw [asleep] at closed calm awake dead
      refine ⟨⟨fun t => ?_, sound.counted, closed, calm, awake, nofun, nofun, dead⟩, nofun⟩
      cases t with
      | destroyer =>
        simp only [holds, asleep] at held ⊢
        exact held
      | reader i => exact sound.held (.reader i)
  · next awake => exact ⟨sound, awake⟩

theorem reader (sound : Sound s) (stepped : s.readerNext request i = some s') : Sound s' := by
  have pending (asleep : s.destroyer = .draining) (quiet : ∀ rc, s.reader i ≠ .signalling rc)
      (mine : s.holder = none ∨ s.holder = some (.reader i)) {object : Object}
      (same : object.waiters = s.object.waiters) : 0 < object.waiters :=
    same ▸ sound.waited_for asleep quiet mine
  unfold readerNext at stepped
  cases here : s.reader i with
  | blocked => simp [here] at stepped
  | returned => simp [here] at stepped
  | woken rc =>
    simp only [here, map_eq_some_iff] at stepped
    obtain ⟨taken, acquired, rfl⟩ := stepped
    obtain ⟨free, rfl⟩ := acquire_eq acquired
    refine sound.move s.object (some (.reader i)) (by rw [here]; nofun)
      (by simp [ReaderPc.holds]) ?_ (by rw [here]; rfl) rfl (fun _ => rfl) (fun _ => nofun) ?_
    · intro t different
      simp [sound.free free t, different.symm]
    · exact fun asleep => .inl (pending asleep (by rw [here]; nofun) (.inl free) rfl)
  | leaving rc =>
    simp only [here, some.injEq] at stepped
    subst stepped
    have counts := sound.counts i
    refine sound.inner (s.object.setWaiters (s.object.waiters - 1)) (by rw [here]; rfl) rfl
      ?_ (by simp) (fun _ => rfl) (fun _ => .inr ⟨rc, rfl⟩)
    rw [here] at counts ⊢
    rw [Object.waiters_setWaiters]
    exact Nat.sub_add_cancel counts
  | signalling rc =>
    simp only [here, some.injEq] at stepped
    subst stepped
    obtain ⟨signalled, awake⟩ := sound.signal
    have same : s.signalDrain.reader i = .signalling rc := by
      unfold signalDrain
      split <;> exact here
    exact signalled.inner (s.signalDrain.object) (by rw [same]; rfl) rfl (by rw [same]; rfl) rfl
      (fun _ => rfl) (fun asleep => absurd asleep awake)
  | deciding rc =>
    simp only [here, some.injEq] at stepped
    subst stepped
    obtain ⟨holds, uncounted, -, calm⟩ := decide_spec s.object rc
    have mine : s.holder = some (.reader i) := (sound.held (.reader i)).mp (by rw [Drain.holds, here]; rfl)
    refine sound.inner (s.object) (by rw [here]; rfl) holds (by rw [here, uncounted]; rfl) rfl
      (fun closed => calm (sound.closed.trans closed)) fun asleep => ?_
    exact .inl (pending asleep (by rw [here]; nofun) (.inr mine) rfl)
  | entering =>
    simp only [here, some.injEq] at stepped
    subst stepped
    refine sound.inner (s.object.setWaiters (s.object.waiters + 1)) (by rw [here]; rfl) rfl
      (by rw [here]; simp [ReaderPc.counted]) (by simp) (fun closed => ?_) (fun _ => .inl (by simp))
    have calm := sound.calm closed i
    rw [here] at calm
    cases calm
  | resting =>
    simp only [here, some.injEq] at stepped
    subst stepped
    refine sound.released (by rw [here]; rfl) (by rw [here]; nofun) rfl (by rw [here]; rfl) fun broadcast => ?_
    have calm := sound.calm (DestroyerPc.closed_of_broadcast broadcast) i
    rw [here] at calm
    cases calm
  | copying =>
    simp only [here, some.injEq] at stepped
    subst stepped
    have mine : s.holder = some (.reader i) := (sound.held (.reader i)).mp (by rw [Drain.holds, here]; rfl)
    refine sound.inner (s.object.take (request i)) (by rw [here]; rfl) rfl (by rw [here]; simp [ReaderPc.counted])
      (by simp) (fun _ => rfl) fun asleep => ?_
    exact .inl (pending asleep (by rw [here]; nofun) (.inr mine) (by simp))
  | announcing =>
    simp only [here, some.injEq] at stepped
    subst stepped
    have mine : s.holder = some (.reader i) := (sound.held (.reader i)).mp (by rw [Drain.holds, here]; rfl)
    refine sound.inner (s.object) (by rw [here]; rfl) rfl (by rw [here]; rfl) rfl (fun _ => rfl) fun asleep => ?_
    exact .inl (pending asleep (by rw [here]; nofun) (.inr mine) rfl)
  | unlocking =>
    simp only [here, some.injEq] at stepped
    subst stepped
    exact sound.released (by rw [here]; rfl) (by rw [here]; nofun) rfl (by rw [here]; rfl) (fun _ => nofun)

theorem advance (sound : Sound s) {pc : DestroyerPc} (object : Object) (holder : Option (Thread n))
    (dead : List Part) (held : pc.holds = true ↔ holder = some .destroyer)
    (others : ∀ i, s.holds (.reader i) = true ↔ holder = some (.reader i))
    (waiters : object.waiters = s.object.waiters) (closed : object.closing = pc.closed)
    (calm : pc.closed = true → ∀ i, (s.reader i).restless = false)
    (awake : pc.broadcast = true → ∀ i, s.reader i ≠ .blocked)
    (waited : pc = .draining → 0 < s.object.waiters)
    (gone : pc.leaving = true → ∀ i, s.reader i = .returned) (died : dead = pc.dead) :
    Sound { s with object, holder, dead, destroyer := pc } := by
  refine ⟨fun t => ?_, waiters.trans sound.counted, closed, calm, awake, fun asleep => ?_, gone, died⟩
  · cases t with
    | destroyer => exact held
    | reader i => exact others i
  · exact .inl (waiters ▸ waited asleep)

theorem killed (sound : Sound s) {part : Part} {pc : DestroyerPc} (left : s.destroyer.leaving = true)
    (free : s.destroyer.holds = false) (leaving : pc.leaving = true) (still : pc.holds = false)
    (died : part :: s.destroyer.dead = pc.dead) : Sound (s.kill part pc) := by
  have returned := sound.gone left
  have before := DestroyerPc.closed_of_leaving left
  refine sound.advance s.object s.holder (part :: s.dead) ?_ (fun i => sound.held (.reader i)) rfl ?_ ?_ ?_ ?_
    (fun _ => returned) (by rw [sound.dead, died])
  · rw [still, ← free]
    exact sound.held .destroyer
  · rw [sound.closed, before, DestroyerPc.closed_of_leaving leaving]
  · intro _ i
    rw [returned i]
    rfl
  · intro _ i
    rw [returned i]
    nofun
  · rintro rfl
    cases leaving

theorem wakeAll (sound : Sound s) : Sound s.wakeAll := by
  have same {α : Type} (f : ReaderPc → α) (alike : f (.woken 0) = f .blocked) (i : Fin n) :
      f (s.wakeAll.reader i) = f (s.reader i) := by
    simp only [Drain.wakeAll]
    split
    · next asleep => rw [asleep, alike]
    · rfl
  refine ⟨fun t => ?_, ?_, sound.closed, fun closed i => ?_, fun broadcast i => ?_, fun asleep => ?_,
    fun leaving i => ?_, sound.dead⟩
  · cases t with
    | destroyer => exact sound.held .destroyer
    | reader i =>
      rw [holds, same ReaderPc.holds rfl]
      exact sound.held (.reader i)
  · refine sound.counted.trans (Finset.sum_congr rfl fun i _ => ?_)
    exact (same ReaderPc.counted rfl i).symm
  · rw [same ReaderPc.restless rfl]
    exact sound.calm closed i
  · simp only [Drain.wakeAll]
    split
    · nofun
    · exact sound.awake broadcast i
  · refine (sound.signalled asleep).imp id ?_
    rintro ⟨i, rc, signalling⟩
    refine ⟨i, rc, ?_⟩
    simp [Drain.wakeAll, signalling]
  · simp [Drain.wakeAll, sound.gone leaving i]

theorem destroyer (sound : Sound s) (stepped : s.destroyerNext = some s') : Sound s' := by
  unfold destroyerNext at stepped
  have closed := sound.closed
  have calm := sound.calm
  have awake := sound.awake
  have died := sound.dead
  have readers (i : Fin n) := sound.held (.reader i)
  cases here : s.destroyer with
  | draining | returned => simp [here] at stepped
  | locking =>
    simp only [here, map_eq_some_iff] at stepped
    obtain ⟨taken, acquired, rfl⟩ := stepped
    obtain ⟨free, rfl⟩ := acquire_eq acquired
    rw [here] at closed died
    exact sound.advance s.object (some .destroyer) s.dead (by simp [DestroyerPc.holds])
      (fun i => by simp [sound.free free (.reader i)]) rfl closed nofun nofun nofun nofun died
  | drained =>
    simp only [here, map_eq_some_iff] at stepped
    obtain ⟨taken, acquired, rfl⟩ := stepped
    obtain ⟨free, rfl⟩ := acquire_eq acquired
    rw [here] at closed calm awake died
    exact sound.advance s.object (some .destroyer) s.dead (by simp [DestroyerPc.holds])
      (fun i => by simp [sound.free free (.reader i)]) rfl closed calm awake nofun nofun died
  | closing =>
    simp only [here, some.injEq] at stepped
    subst stepped
    rw [here] at died
    refine sound.advance s.object.close s.holder s.dead ?_ readers (by simp) (by simp [DestroyerPc.closed])
      (fun _ i => ?_) nofun nofun nofun died
    · simpa [holds, here, DestroyerPc.holds] using sound.held .destroyer
    · -- a reader on its way back to sleep would have the mutex
      have free := sound.only_holder (t := .destroyer) (by rw [holds, here]; rfl)
        (show Thread.reader i ≠ .destroyer by simp)
      by_contra restless
      have holds : s.holds (.reader i) = true := ReaderPc.holds_of_restless (by simpa using restless)
      rw [free] at holds
      cases holds
  | wakingReaders =>
    simp only [here, some.injEq] at stepped
    subst stepped
    rw [here] at closed calm died
    have woken := sound.wakeAll
    refine woken.advance s.object s.holder s.dead ?_ (fun i => woken.held (.reader i)) rfl closed
      (fun _ => woken.calm (by rw [Drain.wakeAll, here]; rfl)) (fun _ i => ?_) nofun nofun died
    · simpa [holds, here, DestroyerPc.holds] using sound.held .destroyer
    · simp only [Drain.wakeAll]
      split
      · nofun
      · next awake => exact awake
  | wakingWriters =>
    simp only [here, some.injEq] at stepped
    subst stepped
    rw [here] at closed calm awake died
    refine sound.advance s.object s.holder s.dead ?_ readers rfl closed calm awake nofun nofun died
    simpa [holds, here, DestroyerPc.holds] using sound.held .destroyer
  | testing =>
    have holds : s.holds .destroyer = true := by
      rw [holds, here]
      rfl
    simp only [here, some.injEq] at stepped
    rw [here] at closed calm awake died
    subst stepped
    split
    · next waiting =>
        exact sound.advance s.object none s.dead (by simp [DestroyerPc.holds])
          (fun i => by simp [sound.only_holder holds (show Thread.reader i ≠ .destroyer by simp)]) rfl
          closed calm awake (fun _ => waiting) nofun died
    · next none =>
        have returned := sound.all_returned holds (by omega)
        refine sound.advance s.object s.holder s.dead ?_ readers rfl closed calm awake nofun (fun _ => returned) died
        simpa [holds, here, DestroyerPc.holds] using sound.held .destroyer
  | unlocking =>
    have holds : s.holds .destroyer = true := by
      rw [holds, here]
      rfl
    have returned := sound.gone (by rw [here]; rfl)
    simp only [here, some.injEq] at stepped
    rw [here] at closed calm awake died
    subst stepped
    exact sound.advance s.object none s.dead (by simp [DestroyerPc.holds])
      (fun i => by simp [sound.only_holder holds (show Thread.reader i ≠ .destroyer by simp)]) rfl
      closed calm awake nofun (fun _ => returned) died
  | destroyMutex | destroyCanRead | destroyCanWrite | destroyDrain | freeBuf | freeObject =>
    simp only [here, some.injEq] at stepped
    subst stepped
    exact sound.killed (by rw [here]; rfl) (by rw [here]; rfl) rfl rfl (by rw [here]; rfl)

theorem wakesUp (sound : Sound s) (woken : WakesUp s s') : Sound s' := by
  cases woken with
  | destroyer asleep =>
    have signalled := sound.signal.1
    rwa [signalDrain, if_pos asleep] at signalled
  | reader i rc asleep =>
    refine sound.move s.object s.holder (by rw [asleep]; nofun) ?_ (fun t _ => sound.held t)
      (by rw [asleep]; rfl) rfl (fun _ => rfl) (fun _ => nofun) fun draining => ?_
    · have free := sound.held (.reader i)
      rwa [holds, asleep] at free
    · have counts := sound.counts i
      rw [asleep] at counts
      exact .inl counts

theorem moves (sound : Sound s) {label : Option (Thread n)} (moved : (system request).Moves label s s') : Sound s' := by
  cases moved with
  | pause => exact sound
  | env changes => exact sound.wakesUp changes
  | step steps =>
    rename_i t
    cases t with
    | destroyer => exact sound.destroyer steps
    | reader i => exact sound.reader steps

theorem alive (sound : Sound s) (t : Thread n) : ∀ part ∈ s.touches t, part ∉ s.dead := by
  rw [sound.dead]
  cases t with
  | destroyer =>
    simp only [touches]
    cases s.destroyer <;> decide
  | reader i =>
    by_cases leaving : s.destroyer.leaving = true
    · simp [touches, sound.gone leaving i, ReaderPc.touches]
    · have nothing : s.destroyer.dead = [] := by
        cases pc : s.destroyer <;> simp_all [DestroyerPc.leaving, DestroyerPc.dead]
      simp [nothing]

end Sound

/-! ## Every call returns -/

variable {request : Fin n → Nat} {s s' : Drain n}

structure DestroyerStep (s s' : Drain n) : Prop where
  readers : ∀ i, s.reader i ≠ .blocked → s'.reader i = s.reader i
  broadcast : s.destroyer.broadcast = true → s'.destroyer.broadcast = true
  kept : s.destroyer.holds = false → s.holder ≠ none → s'.holder = s.holder
  works : s.destroyer.holds = true → s'.holder = none ∨ s'.holder = s.holder ∧ s'.destroyer.rank < s.destroyer.rank
  lower : (s.destroyer = .testing → s.object.waiters = 0) → s'.destroyer.rank < s.destroyer.rank

theorem destroyerStep (stepped : s.destroyerNext = some s') : DestroyerStep s s' := by
  have taking {pc : DestroyerPc} (here : s.destroyer.holds = false) (below : pc.rank < s.destroyer.rank)
      (broadcast : s.destroyer.broadcast = true → pc.broadcast = true)
      (taken : (s.acquire .destroyer).map (fun s => { s with destroyer := pc }) = some s') :
      DestroyerStep s s' := by
    obtain ⟨taken, acquired, rfl⟩ := map_eq_some_iff.mp taken
    obtain ⟨free, rfl⟩ := Sound.acquire_eq acquired
    refine ⟨fun _ _ => rfl, broadcast, fun _ held => absurd free held, fun holds => ?_, fun _ => below⟩
    rw [here] at holds
    cases holds
  unfold destroyerNext at stepped
  cases here : s.destroyer with
  | draining | returned => simp [here] at stepped
  | locking | drained =>
    simp only [here] at stepped
    exact taking (by rw [here]; rfl) (by rw [here]; decide) (by rw [here]; exact id) stepped
  | testing =>
    simp only [here, some.injEq] at stepped
    subst stepped
    split
    · next waiting =>
        exact ⟨fun _ _ => rfl, fun _ => rfl, by rw [here]; nofun, fun _ => .inl rfl,
          fun none => absurd (none here) (by omega)⟩
    · have below : DestroyerPc.unlocking.rank < s.destroyer.rank := by
        rw [here]
        decide
      exact ⟨fun _ _ => rfl, fun _ => rfl, fun _ _ => rfl, fun _ => .inr ⟨rfl, below⟩, fun _ => below⟩
  | unlocking =>
    simp only [here, some.injEq] at stepped
    subst stepped
    exact ⟨fun _ _ => rfl, fun _ => rfl, by rw [here]; nofun, fun _ => .inl rfl,
      fun _ => by simp [here, DestroyerPc.rank]⟩
  | _ =>
    simp only [here, some.injEq] at stepped
    have below : s'.destroyer.rank < s.destroyer.rank := by
      rw [here, ← stepped]
      simp [DestroyerPc.rank, kill]
    subst stepped
    refine ⟨fun i awake => ?_, ?_, fun _ _ => rfl, fun _ => .inr ⟨rfl, below⟩, fun _ => below⟩
    · first | rfl | simp [wakeAll, awake]
    · rw [here]
      first | exact id | exact fun _ => rfl

/-- All that a step of reader `i` can do to the places and the mutex. -/
structure ReaderStep (i : Fin n) (s s' : Drain n) : Prop where
  readers : ∀ j ≠ i, s'.reader j = s.reader j
  destroyer : s'.destroyer = s.destroyer ∨ s.destroyer = .draining ∧ s'.destroyer = .drained
  taken : (s.reader i).holds = false → s.holder = none
  works : (s.reader i).holds = true → s'.holder = none ∨ s'.holder = s.holder ∧ (s'.reader i).rank < (s.reader i).rank
  lower : s.reader i ≠ .resting → (s'.reader i).rank < (s.reader i).rank

variable {i : Fin n} {t : Thread n}

theorem readerStep (stepped : s.readerNext request i = some s') : ReaderStep i s s' := by
  have inner {pc : ReaderPc} {s₁ : Drain n} (readers : s₁.reader = s.reader)
      (destroyer : s₁.destroyer = s.destroyer ∨ s.destroyer = .draining ∧ s₁.destroyer = .drained)
      (holder : s₁.holder = none ∨ s₁.holder = s.holder) (holds : (s.reader i).holds = true)
      (below : s.reader i = .resting ∧ s₁.holder = none ∨ pc.rank < (s.reader i).rank) :
      ReaderStep i s (s₁.goto i pc) := by
    refine ⟨fun j other => ?_, destroyer, fun free => ?_, fun _ => ?_, fun awake => ?_⟩
    · simp [goto, readers, update_of_ne other]
    · rw [holds] at free
      cases free
    · rcases below with ⟨-, released⟩ | below
      · exact .inl released
      · exact holder.imp id fun same => ⟨same, by simpa [goto] using below⟩
    · rcases below with ⟨resting, -⟩ | below
      · exact absurd resting awake
      · simpa [goto] using below
  unfold readerNext at stepped
  cases here : s.reader i with
  | blocked | returned => simp [here] at stepped
  | woken rc =>
    simp only [here, map_eq_some_iff] at stepped
    obtain ⟨taken, acquired, rfl⟩ := stepped
    obtain ⟨free, rfl⟩ := Sound.acquire_eq acquired
    refine ⟨fun j other => ?_, .inl rfl, fun _ => free, by rw [here]; nofun, fun _ => ?_⟩
    · simp [goto, update_of_ne other]
    · simp [goto, here, ReaderPc.rank]
  | signalling rc =>
    simp only [here, some.injEq] at stepped
    subst stepped
    have fields : s.signalDrain.reader = s.reader ∧ s.signalDrain.holder = s.holder ∧
        (s.signalDrain.destroyer = s.destroyer ∨ s.destroyer = .draining ∧ s.signalDrain.destroyer = .drained) := by
      unfold signalDrain
      split
      · next asleep => exact ⟨rfl, rfl, .inr ⟨asleep, rfl⟩⟩
      · exact ⟨rfl, rfl, .inl rfl⟩
    exact inner fields.1 fields.2.2 (.inr fields.2.1) (by rw [here]; rfl) (.inr (by simp [here, ReaderPc.rank]))
  | deciding rc =>
    simp only [here, some.injEq] at stepped
    subst stepped
    refine inner rfl (.inl rfl) (.inr rfl) (by rw [here]; rfl) (.inr ?_)
    rw [here]
    exact (Sound.decide_spec s.object rc).2.2.1
  | resting =>
    simp only [here, some.injEq] at stepped
    subst stepped
    exact inner rfl (.inl rfl) (.inl rfl) (by rw [here]; rfl) (.inl ⟨here, rfl⟩)
  | unlocking =>
    simp only [here, some.injEq] at stepped
    subst stepped
    exact inner rfl (.inl rfl) (.inl rfl) (by rw [here]; rfl) (.inr (by simp [here, ReaderPc.rank]))
  | _ =>
    simp only [here, some.injEq] at stepped
    subst stepped
    exact inner rfl (.inl rfl) (.inr rfl) (by rw [here]; rfl) (.inr (by simp [here, ReaderPc.rank]))

section
variable {label : Option (Thread n)}

theorem reader_stays {i : Fin n} (moved : (system request).Moves label s s')
    (other : label ≠ some (.reader i)) (awake : s.reader i ≠ .blocked) : s'.reader i = s.reader i := by
  cases moved with
  | pause => rfl
  | env changes =>
    cases changes with
    | destroyer => rfl
    | reader j rc asleep =>
      have different : i ≠ j := by
        rintro rfl
        exact awake asleep
      simp [goto, update_of_ne different]
  | step steps =>
    rename_i t
    cases t with
    | destroyer => exact (destroyerStep steps).readers i awake
    | reader j =>
      refine (readerStep steps).readers i ?_
      rintro rfl
      exact other rfl

theorem destroyer_stays (moved : (system request).Moves label s s') (other : label ≠ some .destroyer) :
    s'.destroyer = s.destroyer ∨ s.destroyer = .draining ∧ s'.destroyer = .drained := by
  cases moved with
  | pause => exact .inl rfl
  | env changes =>
    cases changes with
    | destroyer asleep => exact .inr ⟨asleep, rfl⟩
    | reader => exact .inl rfl
  | step steps =>
    rename_i t
    cases t with
    | destroyer => exact absurd rfl other
    | reader j => exact (readerStep steps).destroyer

theorem broadcast_stays (moved : (system request).Moves label s s')
    (broadcast : s.destroyer.broadcast = true) : s'.destroyer.broadcast = true := by
  by_cases own : label = some .destroyer
  · subst own
    cases moved with
    | step steps => exact (destroyerStep steps).broadcast broadcast
  · rcases destroyer_stays moved own with same | ⟨-, drained⟩
    · rwa [same]
    · rw [drained]
      rfl

theorem holder_stays (sound : Sound s) {t : Thread n} (moved : (system request).Moves label s s')
    (other : label ≠ some t) (held : s.holder = some t) : s'.holder = some t := by
  have taken : s.holder ≠ none := by simp [held]
  cases moved with
  | pause => exact held
  | env changes => cases changes <;> exact held
  | step steps =>
    rename_i mover
    have free : s.holds mover = false := by
      rw [← Bool.not_eq_true, sound.held, held]
      rintro ⟨⟩
      exact other rfl
    cases mover with
    | destroyer => exact ((destroyerStep steps).kept free taken).trans held
    | reader j => exact absurd ((readerStep steps).taken free) taken

end

def rank (s : Drain n) : Thread n → Nat
  | .destroyer => s.destroyer.rank
  | .reader i => (s.reader i).rank

theorem rank_stays {label : Option (Thread n)} (holds : s.holds t = true)
    (moved : (system request).Moves label s s') (other : label ≠ some t) : s'.rank t = s.rank t := by
  cases t with
  | destroyer =>
    rcases destroyer_stays moved other with same | ⟨asleep, -⟩
    · rw [rank, rank, same]
    · rw [Drain.holds, asleep] at holds
      cases holds
  | reader i =>
    rw [rank, rank, reader_stays moved other]
    intro asleep
    rw [Drain.holds, asleep] at holds
    cases holds

theorem works (holds : s.holds t = true) (stepped : (system request).step t s s') :
    s'.holder = none ∨ s'.holder = s.holder ∧ s'.rank t < s.rank t := by
  cases t with
  | destroyer => exact (destroyerStep stepped).works holds
  | reader i => exact (readerStep stepped).works holds

/-! ### Who can act -/

theorem enabled_of_holds (holds : s.holds t = true) : (system request).Enabled t s := by
  cases t with
  | destroyer =>
    simp only [System.Enabled, system, ← isSome_iff_exists, destroyerNext]
    simp only [Drain.holds] at holds
    cases here : s.destroyer <;> simp_all [DestroyerPc.holds]
  | reader i =>
    simp only [System.Enabled, system, ← isSome_iff_exists, readerNext]
    simp only [Drain.holds] at holds
    cases here : s.reader i <;> simp_all [ReaderPc.holds]

theorem destroyer_enabled (free : s.holder = none) (awake : s.destroyer ≠ .draining)
    (inside : s.destroyer ≠ .returned) : (system request).Enabled .destroyer s := by
  simp only [System.Enabled, system, ← isSome_iff_exists, destroyerNext]
  cases here : s.destroyer <;> simp_all [acquire]

theorem reader_enabled (free : s.holder = none) (awake : s.reader i ≠ .blocked)
    (inside : s.reader i ≠ .returned) : (system request).Enabled (.reader i) s := by
  simp only [System.Enabled, system, ← isSome_iff_exists, readerNext]
  cases here : s.reader i <;> simp_all [acquire]

section
variable {r : (system request).Run}

theorem sound_run (start : Sound (r.state 0)) (k : Nat) : Sound (r.state k) :=
  (r.reaches k).keeps (fun _ _ _ sound moved => sound.moves moved) start

theorem own_step {t : Thread n} {k : Nat} (own : r.label k = some t) :
    (system request).step t (r.state k) (r.state (k + 1)) := by
  have moved := r.moves k
  rw [own] at moved
  cases moved with
  | step steps => exact steps

theorem free_again (fair : r.Fair) (start : Sound (r.state 0)) (k : Nat) : ∃ j ≥ k, (r.state j).holder = none := by
  cases held : (r.state k).holder with
  | none => exact ⟨k, le_rfl, held⟩
  | some t =>
    have holding (k : Nat) (held : (r.state k).holder = some t) : (r.state k).holds t = true :=
      ((sound_run start k).held t).mpr held
    refine fair.leadsTo (P := fun s => s.holder = some t) (Q := fun s => s.holder = none) t
      (fun s => s.rank t) (fun k held => ?_)
      (fun k => ⟨k, le_rfl, fun held => enabled_of_holds (holding k held)⟩) k held
    by_cases own : r.label k = some t
    · rcases works (holding k held) (own_step own) with released | ⟨same, lower⟩
      · exact .inl released
      · exact .inr ⟨same.trans held, lower.le, fun _ => lower⟩
    · exact .inr ⟨holder_stays (sound_run start k) (r.moves k) own held,
        (rank_stays (holding k held) (r.moves k) own).le, fun own' => absurd own' own⟩

theorem readers_woken (fair : r.Fair) (start : Sound (r.state 0)) (k : Nat) :
    ∃ j ≥ k, (r.state j).destroyer.broadcast = true := by
  by_cases already : (r.state k).destroyer.broadcast = true
  · exact ⟨k, le_rfl, already⟩
  refine fair.leadsTo (P := fun s => s.destroyer.broadcast = false)
    (Q := fun s => s.destroyer.broadcast = true) .destroyer (fun s => s.rank .destroyer)
    (fun k before => ?_) (fun k => ?_) k (Bool.eq_false_of_not_eq_true already)
  · have elsewhere {pc : DestroyerPc} (here : (r.state k).destroyer = pc) (after : pc.broadcast = true) : False := by
      rw [here, after] at before
      cases before
    rw [or_iff_not_imp_left, Bool.not_eq_true]
    intro still
    refine ⟨still, ?_⟩
    by_cases own : r.label k = some .destroyer
    · have lower := (destroyerStep (own_step own)).lower fun testing => (elsewhere testing rfl).elim
      exact ⟨lower.le, fun _ => lower⟩
    · rcases destroyer_stays (r.moves k) own with same | ⟨asleep, -⟩
      · exact ⟨by rw [rank, rank, same], fun own' => absurd own' own⟩
      · exact (elsewhere asleep rfl).elim
  · obtain ⟨j, later, free⟩ := free_again fair start k
    refine ⟨j, later, fun before => destroyer_enabled free ?_ ?_⟩
    all_goals
      intro here
      rw [here] at before
      cases before

theorem reader_returns (fair : r.Fair) (start : Sound (r.state 0)) (i : Fin n) {k : Nat}
    (broadcast : (r.state k).destroyer.broadcast = true) : ∃ j ≥ k, (r.state j).reader i = .returned := by
  by_cases already : (r.state k).reader i = .returned
  · exact ⟨k, le_rfl, already⟩
  refine fair.leadsTo (P := fun s => s.destroyer.broadcast = true ∧ s.reader i ≠ .returned)
    (Q := fun s => s.reader i = .returned) (.reader i) (fun s => s.rank (.reader i))
    (fun k ⟨broadcast, _⟩ => ?_) (fun k => ?_) k ⟨broadcast, already⟩
  · have sound := sound_run start k
    rw [or_iff_not_imp_left]
    intro still
    refine ⟨⟨broadcast_stays (r.moves k) broadcast, still⟩, ?_⟩
    by_cases own : r.label k = some (.reader i)
    · have lower := (readerStep (own_step own)).lower fun resting => by
        have calm := sound.calm (DestroyerPc.closed_of_broadcast broadcast) i
        rw [resting] at calm
        cases calm
      exact ⟨lower.le, fun _ => lower⟩
    · exact ⟨by rw [rank, rank, reader_stays (r.moves k) own (sound.awake broadcast i)], fun own' => absurd own' own⟩
  · obtain ⟨j, later, free⟩ := free_again fair start k
    exact ⟨j, later, fun ⟨broadcast, inside⟩ =>
      reader_enabled free ((sound_run start j).awake broadcast i) inside⟩

theorem returned_for_good (i : Fin n) (k : Nat) (returned : (r.state k).reader i = .returned) :
    (r.state (k + 1)).reader i = .returned := by
  by_cases own : r.label k = some (.reader i)
  · have stepped := own_step own
    simp [system, readerNext, returned] at stepped
  · rw [reader_stays (r.moves k) own (by rw [returned]; nofun), returned]

theorem destroyed_for_good (k : Nat) (returned : (r.state k).destroyer = .returned) :
    (r.state (k + 1)).destroyer = .returned := by
  by_cases own : r.label k = some .destroyer
  · have stepped := own_step own
    simp [system, destroyerNext, returned] at stepped
  · rcases destroyer_stays (r.moves k) own with same | ⟨asleep, -⟩
    · rw [same, returned]
    · rw [returned] at asleep
      cases asleep

theorem destroyer_returns (fair : r.Fair) (start : Sound (r.state 0)) {k : Nat}
    (alone : ∀ i, (r.state k).reader i = .returned) : ∃ j ≥ k, (r.state j).destroyer = .returned := by
  by_cases already : (r.state k).destroyer = .returned
  · exact ⟨k, le_rfl, already⟩
  have nobody (k : Nat) (alone : ∀ i, (r.state k).reader i = .returned) : (r.state k).object.waiters = 0 := by
    rw [(sound_run start k).counted]
    exact Finset.sum_eq_zero fun i _ => by rw [alone i]; rfl
  refine fair.leadsTo (P := fun s => (∀ i, s.reader i = .returned) ∧ s.destroyer ≠ .returned)
    (Q := fun s => s.destroyer = .returned) .destroyer (fun s => s.rank .destroyer)
    (fun k ⟨alone, _⟩ => ?_) (fun k => ?_) k ⟨alone, already⟩
  · rw [or_iff_not_imp_left]
    intro still
    refine ⟨⟨fun i => returned_for_good i k (alone i), still⟩, ?_⟩
    by_cases own : r.label k = some .destroyer
    · have lower := (destroyerStep (own_step own)).lower fun _ => nobody k alone
      exact ⟨lower.le, fun _ => lower⟩
    · refine ⟨?_, fun own' => absurd own' own⟩
      rcases destroyer_stays (r.moves k) own with same | ⟨asleep, awake⟩
      · rw [rank, rank, same]
      · rw [rank, rank, asleep, awake]
        decide
  · obtain ⟨j, later, free⟩ := free_again fair start k
    refine ⟨j, later, fun ⟨alone, inside⟩ => destroyer_enabled free (fun asleep => ?_) inside⟩
    rcases (sound_run start j).signalled asleep with waiting | ⟨i, rc, signalling⟩
    · exact absurd (nobody j alone) waiting.ne'
    · rw [alone i] at signalling
      cases signalling

theorem all_return (fair : r.Fair) (start : Sound (r.state 0)) :
    ∃ k, ∀ j ≥ k, (r.state j).destroyer = .returned ∧ ∀ i, (r.state j).reader i = .returned := by
  obtain ⟨k, -, broadcast⟩ := readers_woken fair start 0
  have readers : ∀ᶠ j in Filter.atTop, ∀ i, (r.state j).reader i = .returned := by
    refine Filter.eventually_all.mpr fun i => ?_
    obtain ⟨j, -, returned⟩ := reader_returns fair start i broadcast
    exact r.forever (P := fun s => s.reader i = .returned) (returned_for_good i) returned
  obtain ⟨l, alone⟩ := Filter.eventually_atTop.mp readers
  obtain ⟨m, -, returned⟩ := destroyer_returns fair start (alone l le_rfl)
  have destroyed := r.forever (P := fun s => s.destroyer = .returned) destroyed_for_good returned
  exact Filter.eventually_atTop.mp (destroyed.and readers)

end

/-! ### From the call on -/

def calling (object : Object) (places : Fin n → ReaderPc) : Drain n := ⟨object, none, [], .locking, places⟩

theorem sound_calling {object : Object} (isOpen : object.closing = false) (waiting : object.waiters = n)
    {places : Fin n → ReaderPc} (inside : ∀ i, places i = .blocked ∨ ∃ rc, places i = .woken rc) :
    Sound (calling object places) := by
  have here (i : Fin n) : (places i).counted = 1 ∧ (places i).holds = false := by
    rcases inside i with blocked | ⟨rc, woken⟩
    · rw [blocked]
      exact ⟨rfl, rfl⟩
    · rw [woken]
      exact ⟨rfl, rfl⟩
  refine ⟨fun t => ?_, ?_, isOpen, nofun, nofun, nofun, nofun, rfl⟩
  · cases t with
    | destroyer => exact iff_of_false nofun nofun
    | reader i => exact iff_of_false (by simp [holds, calling, (here i).2]) nofun
  · rw [calling, waiting, Finset.sum_congr rfl fun i _ => (here i).1]
    simp

theorem destroy_drains (object : Object) (isOpen : object.closing = false) (waiting : object.waiters = n)
    (places : Fin n → ReaderPc) (inside : ∀ i, places i = .blocked ∨ ∃ rc, places i = .woken rc)
    (request : Fin n → Nat) :
    (∀ s, (system request).Reaches (calling object places) s → ∀ t, ∀ part ∈ s.touches t, part ∉ s.dead) ∧
    ∀ r : (system request).Run, r.state 0 = calling object places → r.Fair →
      ∃ k, ∀ j ≥ k, (r.state j).destroyer = .returned ∧ ∀ i, (r.state j).reader i = .returned := by
  have start := sound_calling isOpen waiting inside
  refine ⟨fun s reaches => ?_, fun r first fair => ?_⟩
  · exact (reaches.keeps (P := Sound) (fun _ _ _ sound moved => sound.moves moved) start).alive
  · exact all_return fair (first ▸ start)

def oneReader : Drain 1 := calling (.pipe ⟨4, fun _ => 0, .empty (by decide), false, 1⟩) fun _ => .blocked

def schedule (s : Drain 1) : Option (Thread 1) × Drain 1 :=
  match s.destroyerNext with
  | some s' => (some .destroyer, s')
  | none =>
    match s.readerNext (fun _ => 1) 0 with
    | some s' => (some (.reader 0), s')
    | none => (none, s)

def scheduled (k : Nat) : Drain 1 := (fun s => (schedule s).2)^[k] oneReader

def oneReaderRun : (system fun _ : Fin 1 => 1).Run where
  state := scheduled
  label k := (schedule (scheduled k)).1
  moves k := by
    rw [scheduled, scheduled, iterate_succ_apply']
    generalize (fun s => (schedule s).2)^[k] oneReader = s
    unfold schedule
    split
    · next steps => exact .step steps
    · split
      · next steps => exact .step steps
      · exact .pause s

theorem fair_oneReaderRun : oneReaderRun.Fair := by
  have rests (k : Nat) (late : 20 ≤ k) : (scheduled k).destroyer = .returned ∧ (scheduled k).reader 0 = .returned := by
    induction k, late using Nat.le_induction with
    | base => exact ⟨rfl, rfl⟩
    | succ k _ ih =>
      rw [scheduled, iterate_succ_apply', ← scheduled]
      simp [schedule, destroyerNext, readerNext, ih]
  intro t k again
  obtain ⟨j, late, s', steps⟩ := again 20
  obtain ⟨destroyer, reader⟩ := rests j late
  cases t with
  | destroyer => simp [system, oneReaderRun, destroyerNext, destroyer] at steps
  | reader i => simp [system, oneReaderRun, readerNext, Subsingleton.elim i 0, reader] at steps

theorem destroy_drains_one : (∀ s, (system fun _ => 1).Reaches oneReader s → ∀ t, ∀ part ∈ s.touches t, part ∉ s.dead) ∧
    oneReaderRun.state 0 = oneReader ∧ oneReaderRun.Fair ∧
    ∃ k, ∀ j ≥ k, (oneReaderRun.state j).destroyer = .returned ∧ ∀ i, (oneReaderRun.state j).reader i = .returned := by
  obtain ⟨safe, live⟩ := destroy_drains oneReader.object rfl rfl (fun _ : Fin 1 => .blocked)
    (fun _ => .inl rfl) fun _ => 1
  exact ⟨safe, rfl, fair_oneReaderRun, live oneReaderRun rfl fair_oneReaderRun⟩

end Drain

end Flinstone.Sys
