import Flinstone.Sys.Messages
import Flinstone.Sys.Table

/-! # System calls of several threads -/

namespace Flinstone.Sys
open Flinstone.Lib Flinstone.Vm Function Option

/-- A pointer is `none` or `false` if it is `NULL`. -/
inductive Use where
  | pipeRead (buf : Bool) (count : Nat)
  | pipeWrite (buf : Option (List Byte))
  | msgqSend (buf : Option (List Byte))
  | msgqRecv (buf : Bool) (size : Nat) (timeoutMs : Size)

inductive Request where
  | use (use : Use)
  | close

inductive RacePlace where
  | outside
  /-- Has the entry `h` with the object `id` in a local copy. -/
  | found (request : Request) (h : Fin 256) (id : Nat)
  /-- In the condition wait of `pipe_read` or `msgq_receive`. -/
  | waiting (use : Use) (id : Nat)
  /-- Has destroyed `id` and goes on to clear the entry `h`. -/
  | clearing (h : Fin 256) (id : Nat)

def RacePlace.drained (id : Nat) : RacePlace → RacePlace
  | waiting use id' => if id' = id then outside else waiting use id'
  | place => place

inductive RaceFault where
  | usedFreed (id : Nat)
  | freedTwice (id : Nat)
  | clearedNewer (h : Fin 256)
  deriving DecidableEq

structure Race (T : Type) where
  sys : Vrt
  thread : T → RacePlace
  faults : List RaceFault

/-- `rc` is what the wait returns. -/
inductive RaceAction where
  | create (object : Object)
  | call (h : Size) (request : Request)
  | act
  | wake (rc : Word)

namespace Use

def refused : Use → Bool
  | pipeRead buf count => !buf || count == 0
  | pipeWrite buf => buf.getD [] == []
  | msgqSend buf => buf.getD [] == []
  | msgqRecv buf size _ => !buf || size == 0

def type : Use → VrtType
  | pipeRead _ _ | pipeWrite _ => .pipe
  | msgqSend _ | msgqRecv _ _ _ => .msgq

end Use

namespace Request

def accepts : Request → VrtType → Bool
  | use u, type => type == u.type
  | close, type => type == .pipe || type == .msgq

def touches : Request → Bool
  | use u => !u.refused
  | close => true

end Request

/-! ## What a call does under the lock of its object -/

/-- One pass of `pipe_read`; the flag says that it waits. -/
def Pipe.pass (p : Pipe) (count : Nat) : Bool × Pipe :=
  if p.starved then (true, { p with waiters := p.waiters + 1 })
  else if p.closing && p.ring.len == 0 then (false, p)
  else (false, (pipeTake p count).1)

def Msgq.wait (q : Msgq) : Msgq := { q with waiters := q.waiters + 1 }

namespace Object

-- the entry's type was compared with the call's, so the last case does not arise
def enter : Object → Use → Except Stop (Bool × Object)
  | .pipe p, .pipeRead _ count =>
    let (waits, p) := p.pass count
    .ok (waits, .pipe p)
  | .pipe p, .pipeWrite (some src) => do
      let (_, p) ← pipeWrite p (bytesAt src) src.length
      return (false, .pipe p)
  | .msgq q, .msgqSend (some msg) => do
      let (_, q) ← msgqSend q (.ok msg) msg.length
      return (false, .msgq q)
  | .msgq q, .msgqRecv _ size timeoutMs =>
    if q.closing then .ok (false, .msgq q)
    else if q.ring.len = 0 then
      .ok (if timeoutMs = 0 then (false, .msgq q) else (true, .msgq q.wait))
    else do
      let (_, q) ← msgqTake q size
      return (false, .msgq q)
  | o, _ => .ok (false, o)

def resume (rc : Word) : Object → Use → Except Stop (Bool × Object)
  | .pipe p, .pipeRead _ count =>
    let (waits, p) := { p with waiters := p.waiters - 1 }.pass count
    .ok (waits, .pipe p)
  | .msgq q, .msgqRecv _ size _ =>
    let q := { q with waiters := q.waiters - 1 }
    if rc ≠ 0 then .ok (false, .msgq q)
    else if q.ring.len == 0 && !q.closing then .ok (true, .msgq q.wait)
    else if q.closing && q.ring.len == 0 then .ok (false, .msgq q)
    else do
      let (_, q) ← msgqTake q size
      return (false, .msgq q)
  | o, _ => .ok (false, o)

end Object

namespace Race
variable {T : Type} [DecidableEq T]

def start (sys : Vrt) : Race T := ⟨sys, fun _ => .outside, []⟩

def goto (s : Race T) (t : T) (place : RacePlace) : Race T := { s with thread := update s.thread t place }

def fault (s : Race T) (fault : RaceFault) : Race T := { s with faults := s.faults ++ [fault] }

def destroy (s : Race T) (id : Nat) : Race T :=
  { s with sys := s.sys.store id none, thread := fun t => (s.thread t).drained id }

def create (s : Race T) (object : Object) : Race T :=
  let (id, sys) := s.sys.allocate object
  match vrtAlloc sys object.type id with
  | some (_, sys) => { s with sys }
  | none => { s with sys := sys.store id none }

def call (s : Race T) (t : T) (h : Size) (request : Request) : Race T :=
  match vrtGet s.sys h with
  | some (type, id) =>
    if inRange : h.toNat < 256 then
      if request.accepts type then s.goto t (.found request ⟨h.toNat, inRange⟩ id) else s
    else s
  | none => s

def pass (s : Race T) (t : T) (use : Use) (id : Nat) (body : Object → Except Stop (Bool × Object)) :
    Except Stop (Race T) :=
  match s.sys.objects id with
  | none => .ok ((s.fault (.usedFreed id)).goto t .outside)
  | some object => do
      let (waits, object) ← body object
      return { s with sys := s.sys.store id (some object) }.goto t (if waits then .waiting use id else .outside)

def clear (s : Race T) (h : Fin 256) (id : Nat) : Race T :=
  let stale := (s.sys.table h).resource.any (· != id)
  let s := if stale then s.fault (.clearedNewer h) else s
  { s with sys := vrtFree s.sys (BitVec.ofNat 64 h) }

def act (s : Race T) (t : T) : Except Stop (Race T) :=
  match s.thread t with
  | .found (.use use) _ id =>
    if use.refused then .ok (s.goto t .outside) else s.pass t use id (·.enter use)
  | .found .close h id =>
    let s := if (s.sys.objects id).isNone then s.fault (.freedTwice id) else s.destroy id
    .ok (s.goto t (.clearing h id))
  | .clearing h id => .ok ((s.clear h id).goto t .outside)
  | _ => .ok s

def step (s : Race T) (t : T) (action : RaceAction) : Except Stop (Race T) :=
  match s.thread t, action with
  | .outside, .create object => .ok (s.create object)
  | .outside, .call h request => .ok (s.call t h request)
  | .waiting use id, .wake rc => s.pass t use id (Object.resume rc · use)
  | _, .act => s.act t
  | _, _ => .ok s

def run (s : Race T) : List (T × RaceAction) → Except Stop (Race T)
  | [] => .ok s
  | (t, action) :: rest => s.step t action >>= fun s => run s rest

/-- No thread destroys an object that another one is about to use, or copies an entry whose object is gone. -/
def Exclusive (s : Race T) (t : T) : RaceAction → Prop
  | .call h _ => ∀ t' k id, s.thread t' = .clearing k id → h ≠ BitVec.ofNat 64 k
  | .act => ∀ h id, s.thread t = .found .close h id →
      ∀ t' ≠ t, ∀ request k, s.thread t' = .found request k id → request.touches = false
  | _ => True

def AlwaysExclusive (s : Race T) : List (T × RaceAction) → Prop
  | [] => True
  | (t, action) :: rest =>
    s.Exclusive t action ∧ ∀ s', s.step t action = .ok s' → AlwaysExclusive s' rest

/-! ## What every state satisfies -/

def Fits (sys : Vrt) : RacePlace → Prop
  | .outside => True
  | .found request h id =>
    request.touches = true → (sys.table h).resource = some id ∧ (sys.objects id).isSome
  | .waiting _ id => (sys.objects id).isSome
  | .clearing h id => (sys.table h).resource = some id ∧ sys.objects id = none

theorem drained_eq_clearing {place : RacePlace} {id id' : Nat} {h : Fin 256} :
    place.drained id = .clearing h id' ↔ place = .clearing h id' := by
  cases place with
  | waiting use id'' =>
    simp only [RacePlace.drained]
    split <;> exact iff_of_false nofun nofun
  | outside | found | clearing => rfl

theorem Fits.destroy {sys : Vrt} {place : RacePlace} {id : Nat} (fits : Fits sys place)
    (apart : ∀ request h, place = .found request h id → request.touches = false) :
    Fits (sys.store id none) (place.drained id) := by
  have keeps {id' : Nat} (different : id' ≠ id) (live : (sys.objects id').isSome) :
      ((sys.store id none).objects id').isSome := by
    simpa [different] using live
  cases place with
  | outside => trivial
  | found request h id' =>
    intro touches
    obtain ⟨resource, live⟩ := fits touches
    refine ⟨resource, keeps ?_ live⟩
    rintro rfl
    rw [apart request h rfl] at touches
    cases touches
  | waiting use id' =>
    simp only [RacePlace.drained]
    split
    · trivial
    · next different => exact keeps different fits
  | clearing h id' => exact ⟨fits.1, by simp [update_apply, fits.2]⟩

structure Safe (s : Race T) : Prop where
  owned : ∀ h id, (s.sys.table h).resource = some id → (s.sys.objects id).isSome ∨ ∃ t, s.thread t = .clearing h id
  unique : ∀ h h' id, (s.sys.table h).resource = some id → (s.sys.table h').resource = some id → h = h'
  known : ∀ h id, (s.sys.table h).resource = some id → id < s.sys.nextObject
  fresh : ∀ id ≥ s.sys.nextObject, s.sys.objects id = none
  placed : ∀ t, Fits s.sys (s.thread t)
  alone : ∀ t t' h id id', s.thread t = .clearing h id → s.thread t' = .clearing h id' → t = t'
  faultless : s.faults = []

namespace Safe

section
omit [DecidableEq T]
variable {s : Race T}

theorem start {sys : Vrt} {first : Nat} (oneToOne : sys.OneToOne first)
    (fresh : ∀ id ≥ sys.nextObject, sys.objects id = none) : Safe (start sys : Race T) := by
  refine ⟨fun h id entry => ?_, oneToOne.unique, fun h id entry => ?_, fresh, fun t => trivial, nofun, rfl⟩
  · obtain ⟨-, object, found, -⟩ := oneToOne.owned h id entry
    exact .inl (isSome_iff_exists.mpr ⟨object, found⟩)
  · obtain ⟨-, object, found, -⟩ := oneToOne.owned h id entry
    by_contra late
    rw [fresh id (not_lt.mp late)] at found
    cases found

theorem fits_at {t : T} (safe : Safe s) {place : RacePlace} (here : s.thread t = place) : Fits s.sys place :=
  here ▸ safe.placed t

theorem resys (safe : Safe s) {sys : Vrt} (table : sys.table = s.sys.table) (next : s.sys.nextObject ≤ sys.nextObject)
    (live : ∀ id, (sys.objects id).isSome = (s.sys.objects id).isSome) : Safe { s with sys } := by
  have dead (id : Nat) (none : s.sys.objects id = none) : sys.objects id = .none := by
    rw [← isNone_iff_eq_none, ← not_isSome, live, none]
    rfl
  refine ⟨?_, ?_, ?_, fun id late => dead id (safe.fresh id (next.trans late)), fun t => ?_, safe.alone, safe.faultless⟩
  · simpa only [table, live] using safe.owned
  · simpa only [table] using safe.unique
  · intro h id entry
    rw [table] at entry
    exact (safe.known h id entry).trans_le next
  · have placed := safe.placed t
    cases place : s.thread t with
    | outside => trivial
    | found request h id => simpa only [place, Fits, table, live] using placed
    | waiting use id => simpa only [place, Fits, live] using placed
    | clearing h id =>
      rw [place] at placed
      exact ⟨by rw [table]; exact placed.1, dead id placed.2⟩

theorem store (safe : Safe s) {id : Nat} (there : (s.sys.objects id).isSome) (object : Object) :
    Safe { s with sys := s.sys.store id (some object) } := by
  refine safe.resys rfl le_rfl fun id' => ?_
  rw [Vrt.store_objects, update_apply]
  split
  · next here => rw [here, there]; rfl
  · rfl

theorem create (safe : Safe s) (object : Object) : Safe (s.create object) := by
  have unused := safe.fresh s.sys.nextObject le_rfl
  have others {id : Nat} (there : (s.sys.objects id).isSome) : id ≠ s.sys.nextObject := by
    rintro rfl
    rw [unused] at there
    cases there
  simp only [Race.create]
  split
  · next k sys' found =>
      obtain ⟨free, rfl⟩ := vrtAlloc_eq_some found
      have elsewhere {h : Fin 256} {id : Nat} (entry : (s.sys.table h).resource = some id) : h ≠ k := by
        rintro rfl
        rw [Vrt.allocate_table, entry] at free
        cases free
      have entries {h : Fin 256} {id : Nat}
          (entry : (update s.sys.table k ⟨object.type, some s.sys.nextObject⟩ h).resource = some id) :
          h = k ∧ id = s.sys.nextObject ∨ (s.sys.table h).resource = some id := by
        rw [update_apply] at entry
        split at entry
        · next here => exact .inl ⟨here, (some.inj entry).symm⟩
        · exact .inr entry
      refine ⟨fun h id entry => ?_, fun h h' id entry entry' => ?_, fun h id entry => ?_, fun id late => ?_,
        fun t => ?_, safe.alone, safe.faultless⟩
      · rcases entries entry with ⟨-, rfl⟩ | entry
        · exact .inl (by simp)
        · refine (safe.owned h id entry).imp_left fun there => ?_
          simpa [others there] using there
      · rcases entries entry with ⟨here, rfl⟩ | entry <;> rcases entries entry' with ⟨here', same⟩ | entry'
        · rw [here, here']
        · exact absurd (safe.known h' _ entry') (lt_irrefl _)
        · exact absurd (safe.known h _ entry) (same ▸ lt_irrefl _)
        · exact safe.unique h h' id entry entry'
      · rcases entries entry with ⟨-, rfl⟩ | entry
        · exact Nat.lt_succ_self _
        · exact Nat.lt_succ_of_lt (safe.known h id entry)
      · have different : id ≠ s.sys.nextObject := by
          rintro rfl
          exact Nat.not_succ_le_self _ late
        simpa [different] using safe.fresh id (Nat.le_of_succ_le late)
      · have placed := safe.placed t
        cases place : s.thread t with
        | outside => trivial
        | found request h id =>
          rw [place] at placed
          intro touches
          obtain ⟨entry, there⟩ := placed touches
          exact ⟨by simpa [elsewhere entry] using entry, by simpa [others there] using there⟩
        | waiting use id =>
          rw [place] at placed
          simpa [Fits, others placed] using placed
        | clearing h id =>
          rw [place] at placed
          obtain ⟨entry, gone⟩ := placed
          exact ⟨by simpa [elsewhere entry] using entry, by simpa [(safe.known h id entry).ne] using gone⟩
  · refine safe.resys rfl (Nat.le_succ _) fun id => ?_
    rw [Vrt.allocate_id, Vrt.discard_objects _ _ unused]

end

variable {s : Race T} {t : T}

theorem goto (safe : Safe s) (before : ∀ h id, s.thread t ≠ .clearing h id) {place : RacePlace}
    (after : ∀ h id, place ≠ .clearing h id) (fits : Fits s.sys place) : Safe (s.goto t place) := by
  have still {t' : T} {h : Fin 256} {id : Nat} :
      (s.goto t place).thread t' = .clearing h id ↔ s.thread t' = .clearing h id := by
    by_cases own : t' = t
    · subst own
      simp only [Race.goto, update_self]
      exact iff_of_false (after h id) (before h id)
    · simp only [Race.goto, update_of_ne own]
  refine ⟨fun h id entry => ?_, safe.unique, safe.known, safe.fresh, fun t' => ?_,
    fun t₁ t₂ h id id' first second => ?_, safe.faultless⟩
  · exact (safe.owned h id entry).imp_right fun ⟨t', clearing⟩ => ⟨t', still.mpr clearing⟩
  · by_cases own : t' = t
    · subst own
      simpa only [Race.goto, update_self] using fits
    · simpa only [Race.goto, update_of_ne own] using safe.placed t'
  · exact safe.alone t₁ t₂ h id id' (still.mp first) (still.mp second)

theorem leave (safe : Safe s) (before : ∀ h id, s.thread t ≠ .clearing h id) : Safe (s.goto t .outside) :=
  safe.goto before nofun trivial

variable {id : Nat} {s' : Race T} {h : Fin 256}

theorem pass (safe : Safe s) (before : ∀ h id, s.thread t ≠ .clearing h id) {use : Use}
    (there : (s.sys.objects id).isSome) {body : Object → Except Stop (Bool × Object)}
    (passed : s.pass t use id body = .ok s') : Safe s' := by
  obtain ⟨object, found⟩ := isSome_iff_exists.mp there
  simp only [Race.pass, found] at passed
  obtain ⟨⟨waits, object'⟩, -, done⟩ := bind_eq_ok.mp passed
  cases done
  refine (safe.store there object').goto before ?_ ?_
  · intro h id'
    split <;> nofun
  · split
    · simp [Fits]
    · trivial

theorem call (safe : Safe s) (idle : s.thread t = .outside) {h : Size} {request : Request}
    (settled : ∀ t' k id, s.thread t' = .clearing k id → h ≠ BitVec.ofNat 64 k) :
    Safe (s.call t h request) := by
  unfold Race.call
  split
  · next type id found =>
      split
      · next inRange =>
          split
          · refine safe.goto (by simp [idle]) nofun fun _ => ?_
            obtain ⟨k, rfl, -, entry⟩ := vrtGet_eq_some.mp found
            have here : (⟨(BitVec.ofNat 64 k : Size).toNat, inRange⟩ : Fin 256) = k := Fin.ext (toNat_handle k)
            rw [here]
            refine ⟨entry, (safe.owned k id entry).resolve_right ?_⟩
            rintro ⟨t', clearing⟩
            exact settled t' k id clearing rfl
          · exact safe
      · exact safe
  · exact safe

theorem close (safe : Safe s) (here : s.thread t = .found .close h id)
    (exclusive : ∀ t' ≠ t, ∀ request k, s.thread t' = .found request k id → request.touches = false) :
    Safe ((s.destroy id).goto t (.clearing h id)) := by
  obtain ⟨entry, there⟩ := safe.fits_at here rfl
  have own : ((s.destroy id).goto t (.clearing h id)).thread t = .clearing h id := by simp [Race.goto]
  have other {t' : T} (different : t' ≠ t) :
      ((s.destroy id).goto t (.clearing h id)).thread t' = (s.thread t').drained id := by
    simp [Race.goto, different, destroy]
  have clears {id' : Nat} (dead : s.sys.objects id' = none) : (s.sys.store id none).objects id' = none := by
    simp [update_apply, dead]
  -- nobody else can be clearing this entry, for its object was there until now
  have sole {t' : T} {id' : Nat} (clearing : s.thread t' = .clearing h id') : False := by
    obtain ⟨same, gone⟩ := safe.fits_at clearing
    rw [entry] at same
    cases same
    rw [gone] at there
    cases there
  refine ⟨fun h' id' resource => ?_, safe.unique, safe.known, fun id' late => clears (safe.fresh id' late),
    fun t' => ?_, fun t₁ t₂ k id₁ id₂ first second => ?_, safe.faultless⟩
  · by_cases same : id' = id
    · subst same
      cases safe.unique h' h id' resource entry
      exact .inr ⟨t, own⟩
    · refine (safe.owned h' id' resource).imp (fun live => ?_) fun ⟨t', clearing⟩ => ⟨t', ?_⟩
      · simpa [Race.goto, destroy, same] using live
      · have different : t' ≠ t := by
          rintro rfl
          rw [here] at clearing
          cases clearing
        rw [other different, clearing]
        rfl
  · by_cases mine : t' = t
    · subst mine
      rw [own]
      exact ⟨entry, by simp [Race.goto, destroy]⟩
    · rw [other mine]
      exact (safe.placed t').destroy fun request k => exclusive t' mine request k
  · have clearing {t' : T} {id' : Nat} (different : t' ≠ t)
        (at_ : ((s.destroy id).goto t (.clearing h id)).thread t' = .clearing k id') :
        s.thread t' = .clearing k id' := by
      rwa [other different, drained_eq_clearing] at at_
    by_cases mine₁ : t₁ = t <;> by_cases mine₂ : t₂ = t
    · rw [mine₁, mine₂]
    · rw [mine₁, own] at first
      cases first
      exact (sole (clearing mine₂ second)).elim
    · rw [mine₂, own] at second
      cases second
      exact (sole (clearing mine₁ first)).elim
    · exact safe.alone t₁ t₂ k id₁ id₂ (clearing mine₁ first) (clearing mine₂ second)

theorem clear (safe : Safe s) (here : s.thread t = .clearing h id) : Safe ((s.clear h id).goto t .outside) := by
  obtain ⟨entry, gone⟩ := safe.fits_at here
  have cleared : s.clear h id = { s with sys := s.sys.setEntry h .zero } := by
    simp [Race.clear, entry, vrtFree_handle]
  rw [cleared]
  have entries {k : Fin 256} {id' : Nat} (resource : ((s.sys.setEntry h .zero).table k).resource = some id') :
      k ≠ h ∧ (s.sys.table k).resource = some id' := by
    have different : k ≠ h := by
      rintro rfl
      simp [VrtEntry.zero] at resource
    exact ⟨different, by simpa [different] using resource⟩
  have other {t' : T} (different : t' ≠ t) :
      (Race.goto { s with sys := s.sys.setEntry h .zero } t .outside).thread t' = s.thread t' := by
    simp [Race.goto, different]
  have own : (Race.goto { s with sys := s.sys.setEntry h .zero } t .outside).thread t = .outside := by
    simp [Race.goto]
  refine ⟨fun k id' resource => ?_, fun k k' id' resource resource' => ?_, fun k id' resource => ?_,
    safe.fresh, fun t' => ?_, fun t₁ t₂ k id₁ id₂ first second => ?_, safe.faultless⟩
  · obtain ⟨different, resource⟩ := entries resource
    refine (safe.owned k id' resource).imp_right fun ⟨t', clearing⟩ => ⟨t', ?_⟩
    rw [other, clearing]
    rintro rfl
    rw [here] at clearing
    cases clearing
    exact different rfl
  · exact safe.unique k k' id' (entries resource).2 (entries resource').2
  · exact safe.known k id' (entries resource).2
  · by_cases mine : t' = t
    · rw [mine, own]
      trivial
    · rw [other mine]
      have placed := safe.placed t'
      cases place : s.thread t' with
      | outside => trivial
      | found request k id' =>
        rw [place] at placed
        intro touches
        obtain ⟨resource, live⟩ := placed touches
        have different : k ≠ h := by
          rintro rfl
          rw [entry] at resource
          cases resource
          rw [gone] at live
          cases live
        exact ⟨by simpa [Race.goto, different] using resource, live⟩
      | waiting use id' => rwa [place] at placed
      | clearing k id' =>
        rw [place] at placed
        have different : k ≠ h := by
          rintro rfl
          exact mine (safe.alone t' t k id' id place here)
        exact ⟨by simpa [Race.goto, different] using placed.1, placed.2⟩
  · have inside {t' : T} {id' : Nat}
        (at_ : (Race.goto { s with sys := s.sys.setEntry h .zero } t .outside).thread t' = .clearing k id') :
        s.thread t' = .clearing k id' := by
      by_cases mine : t' = t
      · rw [mine, own] at at_
        cases at_
      · rwa [other mine] at at_
    exact safe.alone t₁ t₂ k id₁ id₂ (inside first) (inside second)

theorem act (safe : Safe s) (exclusive : s.Exclusive t .act) (acted : s.act t = .ok s') : Safe s' := by
  have placed := safe.placed t
  unfold Race.act at acted
  cases place : s.thread t with
  | outside | waiting =>
    simp only [place] at acted
    cases acted
    exact safe
  | clearing h id =>
    simp only [place] at acted
    cases acted
    exact safe.clear place
  | found request h id =>
    rw [place] at placed
    cases request with
    | close =>
      have there := (placed rfl).2
      simp only [place, ← not_isSome, there] at acted
      cases acted
      exact safe.close place (exclusive h id place)
    | use use =>
      simp only [place] at acted
      split at acted
      · cases acted
        exact safe.leave (by simp [place])
      · next given =>
          refine safe.pass (by simp [place]) (placed ?_).2 acted
          simpa [Request.touches] using given

theorem step (safe : Safe s) {action : RaceAction} (exclusive : s.Exclusive t action)
    (stepped : s.step t action = .ok s') : Safe s' := by
  unfold Race.step at stepped
  split at stepped
  · cases stepped
    exact safe.create _
  · next idle =>
      cases stepped
      exact safe.call idle exclusive
  · next use id rc place =>
      have placed := safe.placed t
      rw [place] at placed
      exact safe.pass (by simp [place]) placed stepped
  · exact safe.act exclusive stepped
  · cases stepped
    exact safe

theorem run (safe : Safe s) {actions : List (T × RaceAction)} (exclusive : s.AlwaysExclusive actions)
    (ran : s.run actions = .ok s') : Safe s' := by
  induction actions generalizing s with
  | nil =>
    cases ran
    exact safe
  | cons first rest ih =>
    obtain ⟨middle, stepped, ran⟩ := bind_eq_ok.mp ran
    exact ih (safe.step exclusive.1 stepped) (exclusive.2 middle stepped) ran

end Safe

end Race

theorem close_race_free {T : Type} [DecidableEq T] {sys : Vrt} {first : Nat} (oneToOne : sys.OneToOne first)
    (fresh : ∀ id ≥ sys.nextObject, sys.objects id = none) {actions : List (T × RaceAction)}
    (exclusive : (Race.start sys).AlwaysExclusive actions) {s : Race T}
    (ran : (Race.start sys).run actions = .ok s) : s.faults = [] :=
  ((Race.Safe.start oneToOne fresh).run exclusive ran).faultless

def booted : Vrt := flSysBootstrap vrtStatics

theorem small_pos : 0 < 4 := by decide

def smallPipe : Object := .pipe ⟨4, fun _ => 0, .empty small_pos, false, 0⟩

theorem oneToOne_booted : booted.OneToOne 0 where
  entered := fun id _ object there => by cases (show none = some object from there)
  owned := fun h id entry => by cases (show none = some id from entry)
  unique := fun h h' id entry => by cases (show none = some id from entry)

def orderlyClose : List (Bool × RaceAction) :=
  [(false, .create smallPipe), (false, .call 0 (.use (.pipeWrite (some [1])))), (false, .act),
    (true, .call 0 .close), (true, .act), (true, .act)]

theorem orderlyClose_exclusive : (Race.start booted : Race Bool).AlwaysExclusive orderlyClose := by
  have settled {s : Race Bool} {h : Size} {request : Request} {t : Bool}
      (outside : ∀ t', s.thread t' = .outside) : s.Exclusive t (.call h request) := by
    intro t' k id clearing
    rw [outside t'] at clearing
    cases clearing
  refine ⟨trivial, fun _ stepped => ?_⟩
  cases stepped
  refine ⟨settled fun t => by cases t <;> rfl, fun _ stepped => ?_⟩
  cases stepped
  refine ⟨fun h id place => ?_, fun _ stepped => ?_⟩
  · cases (show RacePlace.found (.use (.pipeWrite (some [1]))) 0 0 = .found .close h id from place)
  cases stepped
  refine ⟨settled fun t => by cases t <;> rfl, fun _ stepped => ?_⟩
  cases stepped
  refine ⟨fun h id _ t' other request k place => ?_, fun _ stepped => ?_⟩
  · cases Bool.eq_false_of_not_eq_true other
    cases (show RacePlace.outside = .found request k id from place)
  cases stepped
  refine ⟨fun h id place => ?_, fun _ _ => trivial⟩
  cases (show RacePlace.clearing 0 0 = .found .close h id from place)

theorem close_race_free_orderly : ∃ s, (Race.start booted : Race Bool).run orderlyClose = .ok s ∧ s.faults = [] :=
  ⟨_, rfl, close_race_free oneToOne_booted (fun _ _ => rfl) orderlyClose_exclusive rfl⟩

/-- A reader reads from a freed pipe; the second of two closing threads clears the entry of a new one. -/
theorem close_races : (∃ s, (Race.start booted : Race Bool).run
        [(false, .create smallPipe), (false, .call 0 (.use (.pipeRead true 1))), (true, .call 0 .close),
          (true, .act), (false, .act)] = .ok s ∧ s.faults = [.usedFreed 0]) ∧
    ∃ s, (Race.start booted : Race Bool).run
        [(false, .create smallPipe), (false, .call 0 .close), (true, .call 0 .close), (false, .act),
          (false, .act), (false, .create smallPipe), (true, .act), (true, .act)] = .ok s ∧
      s.faults = [.freedTwice 0, .clearedNewer 0] :=
  ⟨⟨_, rfl, rfl⟩, _, rfl, rfl⟩

end Flinstone.Sys
