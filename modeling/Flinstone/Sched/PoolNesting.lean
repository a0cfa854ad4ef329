import Flinstone.Sched.PoolSafety
import Mathlib.Data.Fintype.Card

/-! # Commands that wait for commands -/

namespace Flinstone.Sched

variable {L M I : Type} {cmds : Commands L M I} {S W : Type}

structure Nesting (cmds : Commands L M I) where
  bounds : Nat → M → L → Prop
  within : Nat → M → cmds.Local → Prop
  free : cmds.Local → Prop
  start : ∀ {k m line}, bounds k m line → within k m (cmds.start line)
  on : ∀ {k m pc input pc' m'}, within k m pc → cmds.next pc m input = .on pc' m' → within k m' pc'
  submit : ∀ {k m pc input line pc'}, within k m pc → ¬ free pc → cmds.next pc m input = .submit line pc' →
    ∃ k', k = k' + 1 ∧ bounds k' m line
  freed : ∀ {m pc input line pc'}, cmds.next pc m input = .submit line pc' → free pc'
  free_within : ∀ {pc}, free pc → ∀ k m, within k m pc

def Stage.fresh : Stage W → Bool
  | created | queued | busy _ false => true
  | unborn | lost | busy _ true | done | freed => false

namespace Pool

variable [Fintype W]

def depth (s : Pool cmds S W) : Nat := (Finset.univ.filter fun w => s.calls (.inr w) ≠ .outside).card

theorem depth_le {s s' : Pool cmds S W} (fewer : ∀ w, s.calls (.inr w) = .outside → s'.calls (.inr w) = .outside) :
    s'.depth ≤ s.depth := by
  refine Finset.card_le_card fun w blocked => ?_
  simp only [Finset.mem_filter, Finset.mem_univ, true_and] at blocked ⊢
  exact fun idle => blocked (fewer w idle)

/-- No thread is in `submit_single_command`, and the line does not nest deeper than there are workers; workers that
are blocked count. -/
def Sequential (nesting : Nesting cmds) (s : Pool cmds S W) : PoolAction S W L I → Prop
  | .submit t _ line _ =>
    s.calls (.inl t) = .outside → (∀ t', s.calls t' = .outside) ∧ ∃ k < Fintype.card W, nesting.bounds k s.memory line
  | .work w input _ =>
    s.calls (.inr w) = .outside → ∀ j layer pc line pc', s.worker w = .running j layer pc → nesting.free pc →
      cmds.next pc s.memory input = .submit line pc' →
      ∃ k, s.depth + 1 + k < Fintype.card W ∧ nesting.bounds k s.memory line
  | .proceed _ | .shutDown => True

end Pool

theorem Pool.setWorker_worker [DecidableEq W] (s : Pool cmds S W) (w w' : W) (place : WorkerPlace cmds.Local) :
    (s.setWorker w place).worker w' = if w' = w then place else s.worker w' :=
  Function.update_apply ..

namespace Pool
variable [DecidableEq S] [DecidableEq W] {s : Pool cmds S W} {granted : JobMemory} {t : S ⊕ W} {line : L}
  {priority : Int}

theorem submit_calls (given : granted.node = true) :
    (s.submit t granted line priority).calls = Function.update s.calls t (.created s.nextJob priority) := by
  rw [submit_given given]

theorem submit_worker (given : granted.node = true) : (s.submit t granted line priority).worker = s.worker := by
  rw [submit_given given]

theorem submit_memory (given : granted.node = true) : (s.submit t granted line priority).memory = s.memory := by
  rw [submit_given given]

theorem submit_line (given : granted.node = true) {line' : L}
    (found : ((s.submit t granted line priority).jobs s.nextJob).bind Job.commandStr = some line') :
    line' = line := by
  rw [submit_given given] at found
  simp only [Function.update_self, Option.bind_some] at found
  split at found
  · cases found
    rfl
  · cases found

variable {s' : Pool cmds S W} {call : Submit}

theorem still_inside (before : s.calls t ≠ .outside) (after : call ≠ .outside)
    (calls : s'.calls = Function.update s.calls t call) (w : W) :
    s'.calls (.inr w) = .outside ↔ s.calls (.inr w) = .outside := by
  rw [calls, Function.update_apply]
  split
  · next here =>
      subst here
      exact iff_of_false after before
  · rfl

theorem depth_block [Fintype W] {w : W} (idle : s.calls (.inr w) = .outside) (inside : call ≠ .outside)
    (calls : s'.calls = Function.update s.calls (.inr w) call) : s'.depth = s.depth + 1 := by
  have blocked : (Finset.univ.filter fun w => s'.calls (.inr w) ≠ .outside) =
      insert w (Finset.univ.filter fun w => s.calls (.inr w) ≠ .outside) := by
    ext w'
    by_cases here : w' = w <;> simp [calls, here, inside]
  rw [depth, blocked, Finset.card_insert_of_notMem (by simp [idle]), depth]

end Pool

def Active (s : Pool cmds S W) (stage : Nat → Stage W) (j : Nat) : Prop :=
  (stage j).live = true ∧ ∀ w, stage j = .busy w true → s.calls (.inr w) = .outside

theorem Tracks.active {s : Pool cmds S W} {stage : Nat → Stage W} (tracks : Tracks s stage) {w : W} {j : Nat}
    (idle : s.calls (.inr w) = .outside) (duty : (s.worker w).duty = some (j, true)) : Active s stage j := by
  have busy := tracks.on_duty duty
  refine ⟨by rw [busy]; rfl, ?_⟩
  rw [busy]
  rintro _ ⟨⟩
  exact idle

structure Promise (nesting : Nesting cmds) (s : Pool cmds S W) (stage : Nat → Stage W) (j k : Nat) : Prop where
  fresh : (stage j).fresh = true → ∀ line, (s.jobs j).bind Job.commandStr = some line → nesting.bounds k s.memory line
  running : ∀ w layer pc, s.worker w = .running j layer pc → nesting.within k s.memory pc

structure Alone [Fintype W] (nesting : Nesting cmds) (s : Pool cmds S W) (stage : Nat → Stage W) : Prop where
  single : ∀ j j', Active s stage j → Active s stage j' → j = j'
  shallow : s.depth < Fintype.card W
  bounded : ∀ j, Active s stage j → ∃ k, s.depth + k < Fintype.card W ∧ Promise nesting s stage j k
  asleep : ∀ w j layer pc, s.worker w = .running j layer pc → s.calls (.inr w) ≠ .outside → nesting.free pc

namespace Alone
variable [Fintype W] {nesting : Nesting cmds} {s s' : Pool cmds S W} {stage : Nat → Stage W} {j : Nat} {w : W}

theorem start [Nonempty W] (raw : PriorityQueue Unit Nat) (memory : M) :
    Alone nesting (Pool.start cmds raw memory : Pool cmds S W) fun _ => .unborn where
  single := nofun
  shallow := by simpa [Pool.depth, Pool.start] using Fintype.card_pos
  bounded := nofun
  asleep := nofun

theorem frame (alone : Alone nesting s stage)
    (calls : ∀ w, s'.calls (.inr w) = .outside ↔ s.calls (.inr w) = .outside) (worker : s'.worker = s.worker)
    (lines : ∀ j, (s'.jobs j).bind Job.commandStr = (s.jobs j).bind Job.commandStr)
    (memory : s'.memory = s.memory) : Alone nesting s' stage := by
  have depth : s'.depth = s.depth := by simp only [Pool.depth, ne_eq, calls]
  have active {j : Nat} (now : Active s' stage j) : Active s stage j :=
    ⟨now.1, fun w busy => (calls w).mp (now.2 w busy)⟩
  refine ⟨fun j j' one other => alone.single j j' (active one) (active other), ?_, fun j now => ?_, ?_⟩
  · rw [depth]
    exact alone.shallow
  · obtain ⟨k, room, promise⟩ := alone.bounded j (active now)
    refine ⟨k, by rwa [depth], ?_, ?_⟩
    · rw [lines, memory]
      exact promise.fresh
    · rw [worker, memory]
      exact promise.running
  · simp only [worker, ne_eq, calls]
    exact alone.asleep

theorem restage (alone : Alone nesting s stage) (active : Active s stage j) {st : Stage W}
    (fresh : st.fresh = true → (stage j).fresh = true) : Alone nesting s (Function.update stage j st) := by
  have before {k : Nat} (now : Active s (Function.update stage j st) k) : Active s stage k := by
    by_cases here : k = j
    · rwa [here]
    · rwa [Active, Function.update_of_ne here] at now
  refine ⟨fun k k' one other => alone.single k k' (before one) (before other), alone.shallow, fun k now => ?_,
    alone.asleep⟩
  obtain ⟨n, room, promise⟩ := alone.bounded k (before now)
  refine ⟨n, room, fun new => promise.fresh ?_, promise.running⟩
  rw [Function.update_apply] at new
  split at new
  · next here =>
      rw [here]
      exact fresh new
  · exact new

theorem worker_left (alone : Alone nesting s stage) : ∃ w, s.calls (.inr w) = .outside := by
  by_contra none
  have all : (Finset.univ.filter fun w => s.calls (.inr w) ≠ .outside) = Finset.univ :=
    Finset.filter_true_of_mem fun w _ idle => none ⟨w, idle⟩
  have shallow := alone.shallow
  rw [Pool.depth, all, Finset.card_univ] at shallow
  exact shallow.false

variable [DecidableEq W]
variable {place : WorkerPlace cmds.Local} {layer : Int} {pc : cmds.Local} {line : L} {t : S ⊕ W} {granted : JobMemory}
  {k : Nat}

theorem asleep_goto (alone : Alone nesting s stage) (idle : s.calls (.inr w) = .outside) {w' : W}
    (here : (s.setWorker w place).worker w' = .running j layer pc) (blocked : s.calls (.inr w') ≠ .outside) :
    nesting.free pc := by
  rw [Pool.setWorker_worker] at here
  split at here
  · next same =>
      subst same
      exact absurd idle blocked
  · exact alone.asleep w' j layer pc here blocked

theorem goto (alone : Alone nesting s stage) (idle : s.calls (.inr w) = .outside)
    (within : ∀ j layer pc k, place = .running j layer pc →
      Promise nesting s stage j k → nesting.within k s.memory pc) :
    Alone nesting (s.setWorker w place) stage := by
  refine ⟨alone.single, alone.shallow, fun j now => ?_, fun _ _ _ _ => alone.asleep_goto idle⟩
  obtain ⟨k, room, promise⟩ := alone.bounded j now
  refine ⟨k, room, promise.fresh, fun w' layer pc here => ?_⟩
  rw [Pool.setWorker_worker] at here
  split at here
  · exact within j layer pc k here promise
  · exact promise.running w' layer pc here

theorem advance (alone : Alone nesting s stage) (tracks : Tracks s stage) (idle : s.calls (.inr w) = .outside)
    (duty : (s.worker w).duty = some (j, true)) {memory : M}
    (within : ∀ layer pc k, place = .running j layer pc → Promise nesting s stage j k → nesting.within k memory pc) :
    Alone nesting ({ s with memory }.setWorker w place) stage := by
  have busy := tracks.on_duty duty
  have active := tracks.active idle duty
  refine ⟨alone.single, alone.shallow, fun j' now => ?_, fun _ _ _ _ => alone.asleep_goto (s := s) idle⟩
  obtain rfl : j' = j := alone.single j' j now active
  obtain ⟨k, room, promise⟩ := alone.bounded j' active
  refine ⟨k, room, ?_, fun w' layer pc here => ?_⟩
  · rw [busy]
    nofun
  · rw [Pool.setWorker_worker] at here
    split at here
    · exact within layer pc k here promise
    · next other =>
        have his := tracks.on_duty (w := w') (j := j') (b := true) (by rw [here]; rfl)
        rw [busy] at his
        cases his
        exact absurd rfl other

theorem gone (alone : Alone nesting s stage) (idle : s.calls (.inr w) = .outside)
    {pc' : cmds.Local} {input : I} (next : cmds.next pc s.memory input = .submit line pc') :
    Alone nesting (s.setWorker w (.running j layer pc')) stage := by
  refine alone.goto idle ?_
  rintro _ _ _ k ⟨⟩ -
  exact nesting.free_within (nesting.freed next) k s.memory

variable [DecidableEq S]

theorem born (alone : Alone nesting s stage) (tracks : Tracks s stage) (given : granted.node = true) {priority : Int}
    (room : (s.submit t granted line priority).depth + k < Fintype.card W)
    (bounds : nesting.bounds k s.memory line)
    (blocked : ∀ j, Active s stage j → ∃ w, stage j = .busy w true ∧ t = .inr w)
    (asleep : ∀ w j layer pc, t = .inr w → s.worker w = .running j layer pc → nesting.free pc) :
    Alone nesting (s.submit t granted line priority) (Function.update stage s.nextJob .created) := by
  have only {j : Nat} (now : Active (s.submit t granted line priority)
      (Function.update stage s.nextJob .created) j) : j = s.nextJob := by
    by_contra other
    rw [Active, Function.update_of_ne other, Pool.submit_calls given] at now
    have before : Active s stage j := by
      refine ⟨now.1, fun w busy => ?_⟩
      have free := now.2 w busy
      rw [Function.update_apply] at free
      split at free
      · cases free
      · exact free
    obtain ⟨w, busy, rfl⟩ := blocked j before
    have free := now.2 w busy
    rw [Function.update_self] at free
    cases free
  refine ⟨fun j j' one other => (only one).trans (only other).symm, by omega, fun j now => ?_, ?_⟩
  · obtain rfl := only now
    refine ⟨k, room, fun _ line' found => ?_, fun w layer pc here => ?_⟩
    · rw [Pool.submit_line given found, Pool.submit_memory given]
      exact bounds
    · rw [Pool.submit_worker given] at here
      have unborn := (tracks.records.unborn s.nextJob).mp le_rfl
      rw [tracks.on_duty (w := w) (b := true) (by rw [here]; rfl)] at unborn
      cases unborn
  · intro w j layer pc here inside
    rw [Pool.submit_worker given] at here
    rw [Pool.submit_calls given, Function.update_apply] at inside
    split at inside
    · next mine => exact asleep w j layer pc mine.symm here
    · exact alone.asleep w j layer pc here inside

theorem create (alone : Alone nesting s stage) (tracks : Tracks s stage) (quiet : ∀ t, s.calls t = .outside)
    (given : granted.node = true)
    (bounds : ∃ k < Fintype.card W, nesting.bounds k s.memory line) (t : S) (priority : Int) :
    Alone nesting (s.submit (.inl t) granted line priority) (Function.update stage s.nextJob .created) := by
  obtain ⟨k, room, bounds⟩ := bounds
  refine alone.born tracks given ?_ bounds (fun j now => ?_) nofun
  · have depth : (s.submit (.inl t) granted line priority).depth = 0 := by
      simp [Pool.depth, Pool.submit_calls given, quiet]
    omega
  · obtain ⟨t, held⟩ := tracks.callers.owned j now.1
    rw [quiet t] at held
    cases held

theorem nest (alone : Alone nesting s stage) (tracks : Tracks s stage) (idle : s.calls (.inr w) = .outside)
    (here : s.worker w = .running j layer pc) (asleep : nesting.free pc)
    (given : granted.node = true)
    (room : s.depth + 1 + k < Fintype.card W) (bounds : nesting.bounds k s.memory line) :
    Alone nesting (s.submit (.inr w) granted line 0) (Function.update stage s.nextJob .created) := by
  have duty : (s.worker w).duty = some (j, true) := by rw [here]; rfl
  refine alone.born tracks given ?_ bounds (fun j' now => ?_) ?_
  · rwa [Pool.depth_block idle (show Submit.created s.nextJob 0 ≠ .outside from nofun) (Pool.submit_calls given)]
  · obtain rfl := alone.single j' j now (tracks.active idle duty)
    exact ⟨w, tracks.on_duty duty, rfl⟩
  · rintro _ _ _ _ ⟨⟩ again
    rw [here] at again
    cases again
    exact asleep

theorem free (alone : Alone nesting s stage) (tracks : Tracks s stage) (here : s.calls t = .finished j) :
    Alone nesting (((s.freeJob j).note (.returned j)).setCall t .outside) (Function.update stage j .freed) := by
  have done : stage j = .done := tracks.call_fits here
  have active : Active s stage j := by
    refine ⟨by rw [done]; rfl, ?_⟩
    rw [done]
    nofun
  have calls : (((s.freeJob j).note (.returned j)).setCall t .outside).calls = Function.update s.calls t .outside := rfl
  have fewer (w : W) (idle : s.calls (.inr w) = .outside) :
      (((s.freeJob j).note (.returned j)).setCall t .outside).calls (.inr w) = .outside := by
    rw [calls, Function.update_apply]
    split
    · rfl
    · exact idle
  have depth := Pool.depth_le fewer
  -- an active job is one that was blocked by this call
  have woken {j' : Nat} (now : Active (((s.freeJob j).note (.returned j)).setCall t .outside)
      (Function.update stage j .freed) j') : ∃ w, stage j' = .busy w true ∧ t = .inr w := by
    have other : j' ≠ j := by
      rintro rfl
      have live := now.1
      rw [Function.update_self] at live
      cases live
    rw [Active, Function.update_of_ne other] at now
    by_contra none
    refine other (alone.single j' j ⟨now.1, fun w busy => ?_⟩ active)
    have free := now.2 w busy
    rw [calls, Function.update_of_ne] at free
    · exact free
    · rintro rfl
      exact none ⟨w, busy, rfl⟩
  refine ⟨fun k k' one other => ?_, depth.trans_lt alone.shallow, fun k now => ?_, fun w k layer pc runs inside => ?_⟩
  · obtain ⟨w, busy, rfl⟩ := woken one
    obtain ⟨w', busy', same⟩ := woken other
    cases same
    rw [tracks.duties] at busy busy'
    rw [busy] at busy'
    cases busy'
    rfl
  · obtain ⟨w, busy, rfl⟩ := woken now
    refine ⟨0, depth.trans_lt alone.shallow, ?_, fun w' layer pc runs => ?_⟩
    · have other : k ≠ j := by
        rintro rfl
        rw [done] at busy
        cases busy
      rw [Function.update_of_ne other, busy]
      nofun
    · have his := tracks.on_duty (w := w') (j := k) (b := true) (by rw [show s.worker w' = _ from runs]; rfl)
      rw [busy] at his
      cases his
      refine nesting.free_within (alone.asleep w k layer pc runs ?_) _ _
      rw [here]
      nofun
  · exact alone.asleep w k layer pc runs fun idle => inside (fewer w idle)

theorem step (alone : Alone nesting s stage) (tracks : Tracks s stage) {action : PoolAction S W L I}
    (sequential : s.Sequential nesting action) {stage' : Nat → Stage W} (moves : s.Moves stage action s' stage') :
    Alone nesting s' stage' := by
  cases moves with
  | decline t granted line priority => exact alone
  | outside t here => exact alone
  | rest w input granted on => exact alone
  | create t granted line priority idle given =>
    obtain ⟨quiet, bounds⟩ := sequential idle
    exact alone.create tracks quiet given bounds t priority
  | queue t j priority here =>
    have created : stage j = .created := tracks.call_fits here
    have active : Active s stage j := ⟨by rw [created]; rfl, by rw [created]; nofun⟩
    have restaged : Alone nesting s (Function.update stage j (if s.Takes priority then .queued else .lost)) :=
      alone.restage active fun _ => by rw [created]; rfl
    have like := Pool.Like.queueJobPriority s j priority
    refine restaged.frame (fun w => ?_) like.worker like.lines like.memory
    exact Pool.still_inside (by rw [here]; nofun) (show Submit.waiting j ≠ .outside from nofun)
      (congrArg (Function.update · t (.waiting j)) like.calls) w
  | wait t j here pending => exact alone.frame (fun _ => Iff.rfl) rfl (fun _ => rfl) rfl
  | finish t j here done =>
    refine alone.frame (Pool.still_inside ?_ (show Submit.finished j ≠ .outside from nofun) rfl) rfl
      (fun _ => rfl) rfl
    rw [here]
    nofun
  | free t j here => exact alone.free tracks here
  | look w input granted idle free here on => exact alone.goto idle nofun
  | pop w input granted idle free here on j layer pq queued =>
    have active : Active s stage j := ⟨by rw [queued]; rfl, by rw [queued]; nofun⟩
    have popped : Alone nesting (s.setWorker w (.popped j layer)) stage := alone.goto idle nofun
    have restaged : Alone nesting _ (Function.update stage j (.busy w false)) :=
      popped.restage active fun _ => by rw [queued]; rfl
    exact restaged.frame (fun _ => Iff.rfl) rfl (fun _ => rfl) rfl
  | exit w input granted idle here off => exact alone.goto idle nofun
  | start w input granted idle j layer here =>
    have busy : stage j = .busy w false := tracks.on_duty (by rw [here]; rfl)
    have active : Active s stage j := ⟨by rw [busy]; rfl, by rw [busy]; nofun⟩
    have begun : Alone nesting (s.setWorker w (s.entry j layer)) stage := by
      refine alone.goto idle fun j' layer' pc k runs promise => ?_
      unfold Pool.entry at runs
      split at runs
      · next line found =>
          cases runs
          exact nesting.start (promise.fresh (by rw [busy]; rfl) line found)
      · cases runs
    have restaged : Alone nesting _ (Function.update stage j (.busy w true)) := begun.restage active nofun
    exact restaged.frame (fun _ => Iff.rfl) rfl (fun _ => rfl) rfl
  | run w input granted idle j layer pc pc' memory here next =>
    have advanced : Alone nesting ({ s with memory }.setWorker w (.running j layer pc')) stage := by
      refine alone.advance tracks idle (by rw [here]; rfl) ?_
      rintro _ _ k ⟨⟩ promise
      exact nesting.on (promise.running w layer pc here) next
    exact advanced.frame (fun _ => Iff.rfl) rfl (fun _ => rfl) rfl
  | nest w input granted idle j layer pc pc' line here next given =>
    have duty : (s.worker w).duty = some (j, true) := by rw [here]; rfl
    have gone : Alone nesting ((s.touch j).setWorker w (.running j layer pc')) stage :=
      (alone.gone idle next).frame (fun _ => Iff.rfl) rfl (fun _ => rfl) rfl
    have tracks' : Tracks ((s.touch j).setWorker w (.running j layer pc')) stage := by
      refine (tracks.touch ?_).rest ?_
      · rw [tracks.on_duty duty]
        nofun
      · rw [show (s.touch j).worker w = _ from here]
        rfl
    obtain ⟨k, room, bounds⟩ : ∃ k, s.depth + 1 + k < Fintype.card W ∧ nesting.bounds k s.memory line := by
      by_cases free : nesting.free pc
      · exact sequential idle j layer pc line pc' here free next
      · obtain ⟨k, room, promise⟩ := alone.bounded j (tracks.active idle duty)
        obtain ⟨k, rfl, bounds⟩ := nesting.submit (promise.running w layer pc here) free next
        exact ⟨k, by omega, bounds⟩
    exact gone.nest tracks' idle (by rw [Pool.setWorker_worker, if_pos rfl]) (nesting.freed next) given room bounds
  | fail w input granted idle j layer pc pc' line here next denied =>
    exact (alone.gone idle next).frame (fun _ => Iff.rfl) rfl (fun _ => rfl) rfl
  | leave w input granted idle j layer pc memory here next =>
    have advanced : Alone nesting ({ s with memory }.setWorker w (.completing j layer)) stage :=
      alone.advance tracks idle (by rw [here]; rfl) nofun
    exact advanced.frame (fun _ => Iff.rfl) rfl (fun _ => rfl) rfl
  | complete w input granted idle j layer here =>
    have active := tracks.active idle (w := w) (j := j) (by rw [here]; rfl)
    have scans : Alone nesting (s.setWorker w (.scanning layer)) stage := alone.goto idle nofun
    have restaged : Alone nesting _ (Function.update stage j .done) := scans.restage active nofun
    have like := Pool.Like.setJob s j (fun job => { job with done := true }) fun _ => rfl
    exact restaged.frame (fun _ => Iff.rfl) rfl like.lines rfl
  | shutDown => exact alone.frame (fun _ => Iff.rfl) rfl (fun _ => rfl) rfl

theorem run (alone : Alone nesting s stage) (tracks : Tracks s stage) {actions : List (PoolAction S W L I)}
    (sequential : ∀ k action, actions[k]? = some action → (s.run (actions.take k)).Sequential nesting action) :
    ∃ stage', Alone nesting (s.run actions) stage' := by
  induction actions generalizing s stage with
  | nil => exact ⟨stage, alone⟩
  | cons action rest ih =>
    obtain ⟨stage', next, moves⟩ := tracks.step action
    exact ih (alone.step tracks (sequential 0 action rfl) moves) next fun k => sequential (k + 1)

end Alone

end Flinstone.Sched
