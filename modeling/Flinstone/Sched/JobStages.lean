import Flinstone.Sched.Pool

/-! # The life of a job -/

namespace Flinstone.Sched
open List Function Option

/-- The milestones of a job come in order and once each, and a job is not touched once it is freed. -/
def PoolEvent.Allowed (earlier : List PoolEvent) : PoolEvent → Prop
  | .reached .accepted job => .reached .accepted job ∉ earlier
  | .reached .started job => .reached .accepted job ∈ earlier ∧ .reached .started job ∉ earlier
  | .reached .completed job => .reached .started job ∈ earlier ∧ .reached .completed job ∉ earlier
  | .reached .freed job => .reached .completed job ∈ earlier ∧ .reached .freed job ∉ earlier
  | .touched job => .reached .freed job ∉ earlier
  | .returned job => .reached .completed job ∈ earlier

def Orderly (log : List PoolEvent) : Prop :=
  ∀ earlier event later, log = earlier ++ event :: later → event.Allowed earlier

theorem orderly_nil : Orderly [] := by
  intro earlier event later split
  cases earlier <;> cases split

theorem Orderly.snoc {log : List PoolEvent} (orderly : Orderly log) {event : PoolEvent}
    (allowed : event.Allowed log) : Orderly (log ++ [event]) := by
  intro earlier last later split
  rcases eq_nil_or_concat later with rfl | ⟨later, final, rfl⟩
  · obtain ⟨rfl, same⟩ := append_inj' split rfl
    cases same
    exact allowed
  · refine orderly earlier last later ?_
    rw [concat_eq_append, ← cons_append, ← append_assoc] at split
    exact (append_inj' split rfl).1

inductive Stage (W : Type) where
  | unborn | created | queued
  /-- Not taken by `pq_push`. -/
  | lost
  | busy (w : W) (started : Bool)
  | done | freed
  deriving DecidableEq

namespace Stage
variable {W : Type}

def live : Stage W → Bool
  | unborn | freed => false
  | created | queued | lost | busy _ _ | done => true

def awaited : Stage W → Bool
  | queued | lost | busy _ _ | done => true
  | unborn | created | freed => false

theorem live_of_awaited {st : Stage W} (awaited : st.awaited = true) : st.live = true := by
  cases st <;> first | rfl | cases awaited

def progress : Stage W → Nat
  | unborn | created | lost => 0
  | queued | busy _ false => 1
  | busy _ true => 2
  | done => 3
  | freed => 4

end Stage

def Milestone.rank : Milestone → Nat
  | accepted => 1
  | started => 2
  | completed => 3
  | freed => 4

theorem Milestone.rank_injective {m m' : Milestone} (same : m.rank = m'.rank) : m = m' := by
  cases m <;> cases m' <;> first | rfl | cases same

variable {W T L : Type}

structure Logged (log : List PoolEvent) (stage : Nat → Stage W) : Prop where
  orderly : Orderly log
  marks : ∀ milestone job, .reached milestone job ∈ log ↔ milestone.rank ≤ (stage job).progress

namespace Logged
variable {log : List PoolEvent} {stage : Nat → Stage W} {job : Nat} {st : Stage W}

theorem touch (logged : Logged log stage) (live : stage job ≠ .freed) : Logged (log ++ [.touched job]) stage := by
  refine ⟨logged.orderly.snoc ?_, fun m j => by simpa using logged.marks m j⟩
  rw [PoolEvent.Allowed, logged.marks]
  cases here : stage job with
  | freed => exact absurd here live
  | busy w started => cases started <;> simp [Milestone.rank, Stage.progress]
  | _ => simp [Milestone.rank, Stage.progress]

theorem return_ (logged : Logged log stage) (freed : stage job = .freed) : Logged (log ++ [.returned job]) stage := by
  refine ⟨logged.orderly.snoc ?_, fun m j => by simpa using logged.marks m j⟩
  rw [PoolEvent.Allowed, logged.marks, freed]
  simp [Milestone.rank, Stage.progress]

theorem move (logged : Logged log stage) (same : st.progress = (stage job).progress) :
    Logged log (update stage job st) := by
  refine ⟨logged.orderly, fun m j => ?_⟩
  rw [logged.marks, update_apply]
  split
  · next here => rw [here, same]
  · rfl

theorem advance (logged : Logged log stage) (milestone : Milestone)
    (before : (stage job).progress + 1 = milestone.rank) (after : st.progress = milestone.rank) :
    Logged (log ++ [.reached milestone job]) (update stage job st) := by
  refine ⟨logged.orderly.snoc ?_, fun m j => ?_⟩
  · cases milestone <;> simp only [PoolEvent.Allowed, logged.marks, Milestone.rank] at before ⊢ <;> omega
  · rw [mem_append, logged.marks, mem_singleton, PoolEvent.reached.injEq, update_apply]
    split
    · next here =>
        subst here
        rw [after]
        constructor
        · rintro (earlier | ⟨rfl, -⟩)
          · omega
          · exact le_rfl
        · intro reached
          by_cases same : m = milestone
          · exact .inr ⟨same, rfl⟩
          · have different : m.rank ≠ milestone.rank := fun equal => same (Milestone.rank_injective equal)
            exact .inl (by omega)
    · next elsewhere => simp [elsewhere]

end Logged

structure Records (jobs : Nat → Option (Job L)) (nextJob : Nat) (stage : Nat → Stage W) : Prop where
  unborn : ∀ j, nextJob ≤ j ↔ stage j = .unborn
  live : ∀ j, (jobs j).isSome = (stage j).live
  done : ∀ j job, jobs j = some job → (job.done = true ↔ stage j = .done)

namespace Records
variable {jobs : Nat → Option (Job L)} {nextJob : Nat} {stage : Nat → Stage W} {j : Nat} {st : Stage W}

theorem unborn_update (records : Records jobs nextJob stage) (before : (stage j).live = true)
    (after : st ≠ .unborn) (k : Nat) : nextJob ≤ k ↔ update stage j st k = .unborn := by
  rw [records.unborn, update_apply]
  split
  · next here =>
      subst here
      refine iff_of_false ?_ after
      intro none
      rw [none] at before
      cases before
  · rfl

theorem move (records : Records jobs nextJob stage) (before : (stage j).live = true)
    (pending : stage j ≠ .done) (after : st.live = true) (still : st ≠ .done) :
    Records jobs nextJob (update stage j st) := by
  refine ⟨records.unborn_update before ?_, fun k => ?_, fun k job found => ?_⟩
  · rintro rfl
    cases after
  · rw [records.live, update_apply]
    split
    · next here => rw [here, before, after]
    · rfl
  · rw [records.done k job found, update_apply]
    split
    · next here =>
        subst here
        exact iff_of_false pending still
    · rfl

theorem rewrite (records : Records jobs nextJob stage) (change : Job L → Job L)
    (keeps : ∀ job, (change job).done = job.done) :
    Records (update jobs j ((jobs j).map change)) nextJob stage := by
  refine ⟨records.unborn, fun k => ?_, fun k job found => ?_⟩
  · rw [← records.live, update_apply]
    split
    · next here => rw [here, isSome_map]
    · rfl
  · rw [update_apply] at found
    split at found
    · next here =>
        obtain ⟨old, before, rfl⟩ := map_eq_some_iff.mp found
        rw [keeps, here]
        exact records.done j old before
    · exact records.done k job found

theorem create (records : Records jobs nextJob stage) (job : Job L) (fresh : job.done = false) :
    Records (update jobs nextJob (some job)) (nextJob + 1) (update stage nextJob .created) := by
  refine ⟨fun k => ?_, fun k => ?_, fun k old found => ?_⟩
  · rw [update_apply]
    split
    · next here =>
        subst here
        exact iff_of_false (Nat.not_succ_le_self _) nofun
    · next other =>
        rw [← records.unborn]
        omega
  · rw [update_apply, update_apply]
    split
    · rfl
    · exact records.live k
  · rw [update_apply] at found ⊢
    split at found
    · next here =>
        cases found
        rw [if_pos here, fresh]
        exact iff_of_false nofun nofun
    · next other =>
        rw [if_neg other]
        exact records.done k old found

theorem complete (records : Records jobs nextJob stage) (before : (stage j).live = true) :
    Records (update jobs j ((jobs j).map fun job => { job with done := true })) nextJob
      (update stage j .done) := by
  refine ⟨records.unborn_update before nofun, fun k => ?_, fun k job found => ?_⟩
  · rw [update_apply, update_apply]
    split
    · rw [isSome_map, records.live, before]
      rfl
    · exact records.live k
  · rw [update_apply] at found ⊢
    split at found
    · next here =>
        obtain ⟨old, -, rfl⟩ := map_eq_some_iff.mp found
        rw [if_pos here]
        exact iff_of_true rfl rfl
    · next other =>
        rw [if_neg other]
        exact records.done k job found

theorem free (records : Records jobs nextJob stage) (before : (stage j).live = true) :
    Records (update jobs j none) nextJob (update stage j .freed) := by
  refine ⟨records.unborn_update before nofun, fun k => ?_, fun k job found => ?_⟩
  · rw [update_apply, update_apply]
    split
    · rfl
    · exact records.live k
  · rw [update_apply] at found ⊢
    split at found
    · cases found
    · next other =>
        rw [if_neg other]
        exact records.done k job found

end Records

namespace Submit

def job : Submit → Option Nat
  | outside => none
  | created job _ | waiting job | finished job => some job

def Fits (stage : Nat → Stage W) : Submit → Prop
  | outside => True
  | created job _ => stage job = .created
  | waiting job => (stage job).awaited = true
  | finished job => stage job = .done

variable {stage : Nat → Stage W} {call : Submit} {j : Nat} {st : Stage W}

theorem Fits.elsewhere (fits : call.Fits stage) (other : call.job ≠ some j) :
    call.Fits (update stage j st) := by
  have different {k : Nat} (mine : call.job = some k) : k ≠ j := by
    rintro rfl
    exact other mine
  cases call with
  | outside => trivial
  | created k _ | waiting k | finished k =>
    simpa [Fits, update_of_ne (different rfl)] using fits

end Submit

structure Callers (calls : T → Submit) (stage : Nat → Stage W) : Prop where
  fits : ∀ t, (calls t).Fits stage
  owner : ∀ t t' j, (calls t).job = some j → (calls t').job = some j → t = t'
  owned : ∀ j, (stage j).live = true → ∃ t, (calls t).job = some j

namespace Callers
variable {calls : T → Submit} {stage : Nat → Stage W} {t : T} {j : Nat} {st : Stage W}

theorem move (callers : Callers calls stage) (before : (stage j).awaited = true) (pending : stage j ≠ .done)
    (after : st.awaited = true) : Callers calls (update stage j st) := by
  refine ⟨fun t => ?_, callers.owner, fun k live => ?_⟩
  · have fits := callers.fits t
    by_cases mine : (calls t).job = some j
    · cases call : calls t with
      | outside => trivial
      | created k priority =>
        rw [call] at fits mine
        cases mine
        rw [show stage j = .created from fits] at before
        cases before
      | waiting k =>
        rw [call] at mine
        cases mine
        simpa [Submit.Fits] using after
      | finished k =>
        rw [call] at fits mine
        cases mine
        exact absurd fits pending
    · exact fits.elsewhere mine
  · rw [update_apply] at live
    split at live
    · next here =>
        rw [here]
        exact callers.owned j (Stage.live_of_awaited before)
    · exact callers.owned k live

variable [DecidableEq T]

theorem rehold (callers : Callers calls stage) {call : Submit} (held : (calls t).job = some j)
    (holds : call.job = some j) (fits : call.Fits (update stage j st))
    (live : st.live = true → (stage j).live = true) :
    Callers (update calls t call) (update stage j st) := by
  have same (t' : T) : (update calls t call t').job = (calls t').job := by
    rw [update_apply]
    split
    · next here => rw [here, held, holds]
    · rfl
  refine ⟨fun t' => ?_, fun t₁ t₂ k => ?_, fun k alive => ?_⟩
  · by_cases here : t' = t
    · subst here
      rwa [update_self]
    · rw [update_of_ne here]
      exact (callers.fits t').elsewhere fun mine => here (callers.owner t' t j mine held)
  · rw [same, same]
    exact callers.owner t₁ t₂ k
  · simp only [same]
    refine callers.owned k ?_
    rw [update_apply] at alive
    split at alive
    · next here => rw [here, live alive]
    · exact alive

theorem create (callers : Callers calls stage) (idle : calls t = .outside) (unborn : stage j = .unborn)
    (priority : Int) :
    Callers (update calls t (.created j priority)) (update stage j .created) := by
  have unheld (t' : T) : (calls t').job ≠ some j := by
    intro held
    have fits := callers.fits t'
    cases call : calls t' with
    | outside =>
      rw [call] at held
      cases held
    | created k _ | waiting k | finished k =>
      rw [call] at held fits
      cases held
      simp [Submit.Fits, unborn, Stage.awaited] at fits
  refine ⟨fun t' => ?_, fun t₁ t₂ k first second => ?_, fun k alive => ?_⟩
  · rw [update_apply]
    split
    · simp [Submit.Fits]
    · exact (callers.fits t').elsewhere (unheld t')
  · rw [update_apply] at first second
    split at first <;> split at second
    · next here here' => rw [here, here']
    · cases first
      exact absurd second (unheld t₂)
    · cases second
      exact absurd first (unheld t₁)
    · exact callers.owner t₁ t₂ k first second
  · by_cases new : k = j
    · exact ⟨t, by simp [Submit.job, new]⟩
    · rw [update_of_ne new] at alive
      obtain ⟨t', held⟩ := callers.owned k alive
      have other : t' ≠ t := by
        rintro rfl
        rw [idle] at held
        cases held
      exact ⟨t', by rw [update_of_ne other, held]⟩

theorem free (callers : Callers calls stage) (held : (calls t).job = some j) :
    Callers (update calls t .outside) (update stage j .freed) := by
  refine ⟨fun t' => ?_, fun t₁ t₂ k first second => ?_, fun k alive => ?_⟩
  · by_cases here : t' = t
    · rw [here, update_self]
      trivial
    · rw [update_of_ne here]
      exact (callers.fits t').elsewhere fun mine => here (callers.owner t' t j mine held)
  · rw [update_apply] at first second
    split at first
    · cases first
    · split at second
      · cases second
      · exact callers.owner t₁ t₂ k first second
  · rw [update_apply] at alive
    split at alive
    · cases alive
    · next other =>
        obtain ⟨t', owns⟩ := callers.owned k alive
        have different : t' ≠ t := by
          rintro rfl
          rw [held] at owns
          exact other (some.inj owns).symm
        exact ⟨t', by rw [update_of_ne different, owns]⟩

end Callers

def WorkerPlace.duty {Local : Type} : WorkerPlace Local → Option (Nat × Bool)
  | popped job _ => some (job, false)
  | running job _ _ | completing job _ => some (job, true)
  | loop | scanning _ | exited => none

def Duties {Local : Type} (worker : W → WorkerPlace Local) (stage : Nat → Stage W) : Prop :=
  ∀ w j started, stage j = .busy w started ↔ (worker w).duty = some (j, started)

namespace Duties
variable {Local : Type} {worker : W → WorkerPlace Local} {stage : Nat → Stage W} {w : W} {j : Nat} {st : Stage W}

theorem move (duties : Duties worker stage) (before : ∀ w b, stage j ≠ .busy w b)
    (after : ∀ w b, st ≠ .busy w b) : Duties worker (update stage j st) := by
  intro w k b
  rw [← duties w k b, update_apply]
  split
  · next here =>
      subst here
      exact iff_of_false (after w b) (before w b)
  · rfl

variable [DecidableEq W]
variable {place : WorkerPlace Local}

theorem rest (duties : Duties worker stage)
    (same : place.duty = (worker w).duty) : Duties (update worker w place) stage := by
  intro w' k b
  rw [duties w' k b, update_apply]
  split
  · next here => rw [here, same]
  · rfl

theorem change (duties : Duties worker stage)
    (mine : ∀ k b, (worker w).duty = some (k, b) → k = j) (only : ∀ w' b, stage j = .busy w' b → w' = w)
    (after : ∀ k b, place.duty = some (k, b) ↔ k = j ∧ st = .busy w b)
    (same : ∀ w' b, st = .busy w' b → w' = w) :
    Duties (update worker w place) (update stage j st) := by
  intro w' k b
  rw [update_apply stage, update_apply worker]
  by_cases here : w' = w <;> by_cases this : k = j
  · subst here this
    rw [if_pos rfl, if_pos rfl, after]
    simp
  · subst here
    rw [if_pos rfl, if_neg this, duties, after]
    exact iff_of_false (fun held => this (mine k b held)) fun both => this both.1
  · subst this
    rw [if_pos rfl, if_neg here, ← duties]
    exact iff_of_false (fun busy => here (same w' b busy)) fun busy => here (only w' b busy)
  · rw [if_neg here, if_neg this]
    exact duties w' k b

end Duties

def ticket (job : Nat) : Option Unit × Option Nat := (some (), some job)

structure Line (pq : PriorityQueue Unit Nat) (cells : Layer → List Nat) (stage : Nat → Stage W) : Prop where
  shown : Shows Prod.mk pq fun layer => (cells layer).map ticket
  members : ∀ j, j ∈ (List.finRange 4).flatMap cells ↔ stage j = .queued
  nodup : ((List.finRange 4).flatMap cells).Nodup

namespace Line
variable {pq : PriorityQueue Unit Nat} {cells : Layer → List Nat} {stage : Nat → Stage W} {j : Nat} {st : Stage W}

theorem count (line : Line pq cells stage) : pqCount pq = ((finRange 4).flatMap cells).length := by
  rw [line.shown.count]
  simp

theorem isEmpty_iff (line : Line pq cells stage) : pqIsEmpty pq = true ↔ ∀ j, stage j ≠ .queued := by
  rw [line.shown.isEmpty_iff]
  simp only [flatMap_eq_nil_iff, map_eq_nil_iff, ne_eq, ← line.members]
  rw [← flatMap_eq_nil_iff, eq_nil_iff_forall_not_mem]

theorem move (line : Line pq cells stage) (before : stage j ≠ .queued) (after : st ≠ .queued) :
    Line pq cells (update stage j st) := by
  refine ⟨line.shown, fun k => ?_, line.nodup⟩
  rw [line.members, update_apply]
  split
  · next here =>
      subst here
      exact iff_of_false before after
  · rfl

theorem push (line : Line pq cells stage) (absent : stage j ≠ .queued) (room : pqCount pq < 128)
    {priority : Int} (valid : priorityValid priority = true) :
    (pqPush pq priority (some ()) (some j)).1 ≠ -1 ∧
    Line (pqPush pq priority (some ()) (some j)).2
      (update cells (layerOf priority) (cells (layerOf priority) ++ [j]))
      (update stage j .queued) := by
  rw [line.count] at room
  have room : ((finRange 4).flatMap fun layer => (cells layer).map ticket).length < 128 := by
    simp only [length_flatMap, length_map]
    rw [length_flatMap] at room
    exact_mod_cast room
  obtain ⟨taken, shown⟩ := line.shown.push room valid () (some j)
  have perm := flatMap_append_perm cells (layerOf priority) j
  refine ⟨taken, ?_, fun k => ?_, ?_⟩
  · convert shown using 1
    funext layer
    by_cases here : layer = layerOf priority
    · subst here
      simp [ticket]
    · simp [update_of_ne here]
  · rw [perm.mem_iff, mem_cons, line.members, update_apply]
    split
    · next here => simp [here]
    · next other => simp [other]
  · rw [perm.nodup_iff, nodup_cons, line.members]
    exact ⟨absent, line.nodup⟩

theorem setQuantum (line : Line pq cells stage) (h : PqHandle) (quantum : BitVec 32) :
    Line (pqSetQuantum pq h quantum) cells stage :=
  ⟨line.shown.setQuantum h quantum, line.members, line.nodup⟩

theorem pop (line : Line pq cells stage) {layer : Int} (valid : priorityValid layer = true) {rest : List Nat}
    (first : cells (layerOf layer) = j :: rest) (after : st ≠ .queued) :
    ∃ task pq', pqPopFromLayer pq layer true = (some task, pq') ∧ task.fn = some () ∧ task.arg = some j ∧
      stage j = .queued ∧
      Line pq' (update cells (layerOf layer) rest) (update stage j st) := by
  have head : (cells (layerOf layer)).map ticket = ticket j :: rest.map ticket := by
    rw [first]
    rfl
  obtain ⟨task, pq', popped, found, shown⟩ := line.shown.pop_cons valid head
  have perm := flatMap_split_perm (show cells (layerOf layer) = [] ++ j :: rest from first)
  have nodup := perm.nodup_iff.mp line.nodup
  rw [nodup_cons] at nodup
  refine ⟨task, pq', popped, congrArg Prod.fst found, congrArg Prod.snd found, ?_, ?_, fun k => ?_, nodup.2⟩
  · rw [← line.members, perm.mem_iff]
    exact mem_cons_self
  · convert shown using 1
    funext other
    by_cases here : other = layerOf layer
    · subst here
      simp
    · simp [update_of_ne here]
  · have members := line.members k
    rw [perm.mem_iff, mem_cons] at members
    rw [update_apply]
    split
    · next here =>
        subst here
        exact iff_of_false nodup.1 after
    · next other => rwa [or_iff_right other] at members

theorem scan (line : Line pq cells stage) {layers : List Int} (valid : ∀ layer ∈ layers, priorityValid layer = true) :
    scanLayers pq layers = (none, pq) ∨
    ∃ layer task pq' j, scanLayers pq layers = (some (layer, task), pq') ∧ task.fn = some () ∧
      task.arg = some j ∧ stage j = .queued ∧
      ∀ st : Stage W, st ≠ .queued → ∃ cells', Line pq' cells' (update stage j st) := by
  induction layers with
  | nil => exact .inl rfl
  | cons layer rest ih =>
    have usable := valid layer mem_cons_self
    unfold scanLayers
    cases first : cells (layerOf layer) with
    | nil =>
      rw [line.shown.pop_nil (by rw [first]; rfl)]
      exact ih fun other member => valid other (mem_cons_of_mem _ member)
    | cons j others =>
      right
      have other : (Stage.freed : Stage W) ≠ .queued := nofun
      obtain ⟨task, pq', popped, fn, arg, queued, -⟩ := line.pop usable first other
      rw [popped]
      refine ⟨layer, task, pq', j, rfl, fn, arg, queued, fun st after => ?_⟩
      obtain ⟨task', pq'', popped', -, -, -, next⟩ := line.pop usable first after
      rw [popped] at popped'
      cases popped'
      exact ⟨_, next⟩

end Line

end Flinstone.Sched
