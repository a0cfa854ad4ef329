import Flinstone.Sched.History

/-! # Handles -/

namespace Flinstone.Sched
open Flinstone.Lib List

variable {F A : Type}

/-! ## Which records a handle can change -/

def Touches (pq : PriorityQueue F A) (h : PqHandle) (slot : Slot) : Prop :=
  (∃ newPriority, (pqUpdate pq h newPriority).2.slots slot ≠ pq.slots slot) ∨
    (pqRemove pq h).2.slots slot ≠ pq.slots slot ∨
    ∃ quantum, (pqSetQuantum pq h quantum).slots slot ≠ pq.slots slot

def Rejects (pq : PriorityQueue F A) (h : PqHandle) : Prop :=
  (∀ newPriority, pqUpdate pq h newPriority = (-1, pq)) ∧ pqRemove pq h = (-1, pq) ∧
    ∀ quantum, pqSetQuantum pq h quantum = pq

variable {pq : PriorityQueue F A} {h : PqHandle} {slot : Slot} {m : Mlq F A} {e : Entry F A} {layer l : Layer}
  {id n : Nat} {priority : Int}

theorem rejects_of_invalid (invalid : handleValid pq h = false) : Rejects pq h := by
  refine ⟨fun newPriority => ?_, ?_, fun quantum => ?_⟩
  · unfold pqUpdate
    split <;> simp [invalid]
  · simp [pqRemove, invalid]
  · simp [pqSetQuantum, invalid]

theorem Touches.slot_eq (touched : Touches pq h slot) : slot = slotOf h := by
  by_contra different
  rcases touched with ⟨newPriority, changed⟩ | changed | ⟨quantum, changed⟩
  · apply changed
    unfold pqUpdate
    repeat' split
    all_goals simp [appendToLayer, unlinkSlot, different]
  · apply changed
    unfold pqRemove
    split <;> simp [freeSlot, unlinkSlot, different]
  · apply changed
    unfold pqSetQuantum
    split <;> simp [different]

theorem Touches.handleValid (touched : Touches pq h slot) : handleValid pq h = true := by
  by_contra invalid
  have rejected := rejects_of_invalid (Bool.eq_false_iff.mpr invalid)
  rcases touched with ⟨newPriority, changed⟩ | changed | ⟨quantum, changed⟩
  · exact changed (by rw [rejected.1])
  · exact changed (by rw [rejected.2.1])
  · exact changed (by rw [rejected.2.2])

theorem Represents.handleValid_of_addresses (rep : Represents pq m) (queued : e ∈ m.entries)
    (addressed : Mlq.addresses h e = true) : handleValid pq h = true := by
  rw [rep.handleValid_eq]
  exact find?_isSome.mpr ⟨e, queued, addressed⟩

theorem touches_of_addresses (rep : Represents pq m) (queued : e ∈ m.entries)
    (addressed : Mlq.addresses h e = true) : Touches pq h e.slot := by
  obtain ⟨layer, inLayer⟩ := Mlq.mem_entries.mp queued
  have filled := rep.filled layer e inLayer
  have valid := rep.handleValid_of_addresses queued addressed
  refine .inr (.inl fun same => ?_)
  have cleared : (pqRemove pq h).2.slots e.slot = .zero := by
    simp [pqRemove, valid, freeSlot, Represents.addresses_slot addressed]
  have callable := filled.callable
  rw [← filled.task, ← same, cleared] at callable
  cases callable

/-! ## Stale and foreign handles -/

/-- Calls with `h` act on a task only if its push returned `h`, and are rejected once it is popped or removed. -/
def HandleSafe (pq : PriorityQueue F A) (m : Mlq F A) (h : PqHandle) : Prop :=
  (∀ e ∈ m.entries, Touches pq h e.slot → e.handle = h) ∧
    (h ∈ m.retired ∨ (∀ e ∈ m.entries, e.handle ≠ h) → Rejects pq h)

/-- In bits 8 to 15, which the check ignores, or by a generation that has come round to that of a retired task. -/
def Collides (m : Mlq F A) (h : PqHandle) : Prop :=
  ∃ e ∈ m.entries, Mlq.addresses h e = true ∧ (h.toNat / 256 % 256 ≠ 0 ∨ h ∈ m.retired)

theorem handle_eq_iff (rep : Represents pq m) (queued : e ∈ m.entries) (addressed : Mlq.addresses h e = true) :
    e.handle = h ↔ h.toNat / 256 % 256 = 0 := by
  obtain ⟨layer, inLayer⟩ := Mlq.mem_entries.mp queued
  have handle := (rep.filled layer e inLayer).handle
  simp only [Mlq.addresses, Bool.and_eq_true, beq_iff_eq] at addressed
  have slot := addressed.1.2
  have gen := congrArg BitVec.toNat addressed.2
  have packed := pqMakeHandle_toNat (pq.gen e.slot) e.slot
  rw [pqHandleSlot_eq] at slot
  rw [pqHandleGen_toNat, pqHandleGen_toNat, handle, packed] at gen
  constructor
  · intro same
    rw [← same, handle, packed]
    omega
  · intro clear
    rw [handle]
    apply BitVec.eq_of_toNat_eq
    omega

theorem handleSafe_iff (rep : Represents pq m) (h : PqHandle) : HandleSafe pq m h ↔ ¬ Collides m h := by
  constructor
  · rintro ⟨acts, rejects⟩ ⟨e, queued, addressed, bad⟩
    have valid := rep.handleValid_of_addresses queued addressed
    have own := acts e queued (touches_of_addresses rep queued addressed)
    rcases bad with bits | retired
    · exact bits ((handle_eq_iff rep queued addressed).mp own)
    · have removed := (rejects (.inl retired)).2.1
      simp [pqRemove, valid] at removed
  · intro clear
    have own : ∀ e ∈ m.entries, Mlq.addresses h e = true → e.handle = h := by
      intro e queued addressed
      refine (handle_eq_iff rep queued addressed).mpr ?_
      by_contra bits
      exact clear ⟨e, queued, addressed, .inl bits⟩
    constructor
    · intro e queued touched
      have valid := touched.handleValid
      rw [rep.handleValid_eq, Option.isSome_iff_exists] at valid
      obtain ⟨e', found⟩ := valid
      obtain ⟨queued', addressed⟩ := Represents.lookup_some found
      have same : e' = e := rep.entry_unique queued' queued
        ((Represents.addresses_slot addressed).symm.trans touched.slot_eq.symm)
      exact same ▸ own e' queued' addressed
    · intro stale
      apply rejects_of_invalid
      rw [rep.handleValid_eq, Option.isSome_eq_false_iff, Option.isNone_iff_eq_none]
      refine find?_eq_none.mpr fun e queued addressed => ?_
      rcases stale with retired | foreign
      · exact clear ⟨e, queued, addressed, .inr retired⟩
      · exact foreign e queued (own e queued addressed)

theorem history_handleSafe_iff (raw : PriorityQueue F A) (calls : List (PqCall F A)) (h : PqHandle) :
    HandleSafe (history raw calls).1 (history raw calls).2 h ↔ ¬ Collides (history raw calls).2 h :=
  handleSafe_iff (history_represents raw calls) h

theorem collides_foreign : Collides (history (default : PriorityQueue Unit Unit) [.push 0 () none]).2 383#32 := by
  have collides : ((history (default : PriorityQueue Unit Unit) [.push 0 () none]).2.entries.any
      fun e => Mlq.addresses 383#32 e) = true := by decide
  obtain ⟨e, queued, addressed⟩ := any_eq_true.mp collides
  exact ⟨e, queued, addressed, .inl (by decide)⟩

/-! ## The handle of a queued task -/

structure Obeys (pq : PriorityQueue F A) (h : PqHandle) (slot : Slot) : Prop where
  update : ∀ newPriority, priorityValid newPriority = true →
    (pqUpdate pq h newPriority).1 = 0 ∧ (pqUpdate pq h newPriority).2.slots slot =
      { pq.slots slot with priority := layerOf newPriority }
  remove : (pqRemove pq h).1 = 0 ∧ (pqRemove pq h).2.slots slot = .zero
  setQuantum : ∀ quantum, (pqSetQuantum pq h quantum).slots slot = { pq.slots slot with quantum }

theorem obeys_of_valid (valid : handleValid pq h = true) : Obeys pq h (slotOf h) := by
  refine ⟨fun newPriority inRange => ?_, ?_, fun quantum => ?_⟩
  · by_cases same : (pq.slots (slotOf h)).priority = layerOf newPriority
    · simp [pqUpdate, inRange, valid, ← same]
    · simp [pqUpdate, inRange, valid, same, appendToLayer, unlinkSlot]
  · simp [pqRemove, valid, freeSlot]
  · simp [pqSetQuantum, valid]

def Keeps (m m' : Mlq F A) : Prop :=
  ∀ layer, ∀ e ∈ m'.layers layer, ∃ e' ∈ m.entries, e'.id = e.id ∧ e'.handle = e.handle

theorem Keeps.refl (m : Mlq F A) : Keeps m m :=
  fun layer e inLayer => ⟨e, Mlq.mem_entries.mpr ⟨layer, inLayer⟩, rfl, rfl⟩

theorem mem_update {layers : Layer → List (Entry F A)} {cells : List (Entry F A)}
    (inLayer : e ∈ Function.update layers layer cells l) :
    l = layer ∧ e ∈ cells ∨ e ∈ layers l := by
  by_cases same : l = layer
  · subst same
    rw [Function.update_self] at inLayer
    exact .inl ⟨rfl, inLayer⟩
  · rw [Function.update_of_ne same] at inLayer
    exact .inr inLayer

theorem keeps_popFrom (m : Mlq F A) (layer : Layer) : Keeps m (m.popFrom layer) := by
  intro l e inLayer
  apply Keeps.refl m l
  unfold Mlq.popFrom at inLayer
  split at inLayer
  · exact inLayer
  · next cells =>
      rcases mem_update inLayer with ⟨rfl, rest⟩ | old
      · exact cells ▸ mem_cons_of_mem _ rest
      · exact old

theorem mem_of_without (inLayer : e ∈ m.without h layer l) : e ∈ m.layers l := by
  rcases mem_update inLayer with ⟨rfl, rest⟩ | old
  · exact mem_of_mem_eraseP rest
  · exact old

theorem keeps_move (m : Mlq F A) (h : PqHandle) (layer : Layer) : Keeps m (m.move h layer) := by
  intro l e inLayer
  unfold Mlq.move at inLayer
  split at inLayer
  · exact Keeps.refl m l e inLayer
  · next moved found =>
      split at inLayer
      · exact Keeps.refl m l e inLayer
      · rcases mem_update inLayer with ⟨rfl, appended⟩ | old
        · rw [mem_append, mem_singleton] at appended
          rcases appended with old | rfl
          · exact Keeps.refl m l e old
          · exact ⟨moved, (Represents.lookup_some found).1, rfl, rfl⟩
        · exact Keeps.refl m l e (mem_of_without old)

theorem keeps_remove (m : Mlq F A) (h : PqHandle) : Keeps m (m.remove h) := by
  intro l e inLayer
  unfold Mlq.remove at inLayer
  split at inLayer
  · exact Keeps.refl m l e inLayer
  · exact Keeps.refl m l e (mem_of_without inLayer)

theorem keeps_setQuantum (m : Mlq F A) (h : PqHandle) (quantum : BitVec 32) : Keeps m (m.setQuantum h quantum) := by
  intro l e inLayer
  obtain ⟨e', inLayer', rfl⟩ := mem_map.mp inLayer
  refine ⟨e', Mlq.mem_entries.mpr ⟨l, inLayer'⟩, ?_⟩
  split <;> exact ⟨rfl, rfl⟩

theorem keeps_clear (m : Mlq F A) : Keeps m m.clear := by
  intro l e inLayer
  cases inLayer

theorem apply_keeps (m : Mlq F A) (call : PqCall F A) (reply : PqReply F A) :
    (Keeps m (m.apply call reply) ∧ (m.apply call reply).serial = m.serial) ∨
      ∃ layer fn arg, m.apply call reply = m.push layer reply.ret fn arg := by
  have popKept : ∀ layer, (m.popFrom layer).serial = m.serial := by
    intro layer
    unfold Mlq.popFrom
    split <;> rfl
  have unchanged : Keeps m m ∧ m.serial = m.serial := ⟨Keeps.refl m, rfl⟩
  cases call with
  | init => exact .inl ⟨keeps_clear m, rfl⟩
  | setQuantum h quantum => exact .inl ⟨keeps_setQuantum m h quantum, rfl⟩
  | push priority fn arg =>
    simp only [Mlq.apply]
    split
    · exact .inl unchanged
    · exact .inr ⟨_, _, _, rfl⟩
  | pop out =>
    refine .inl ?_
    simp only [Mlq.apply]
    split
    · exact unchanged
    · cases m.firstNonempty with
      | none => exact unchanged
      | some layer => exact ⟨keeps_popFrom m layer, popKept layer⟩
  | popFromLayer layer out =>
    refine .inl ?_
    simp only [Mlq.apply]
    split
    · exact unchanged
    · exact ⟨keeps_popFrom m _, popKept _⟩
  | update h newPriority =>
    refine .inl ?_
    simp only [Mlq.apply]
    split
    · exact unchanged
    · refine ⟨keeps_move m h _, ?_⟩
      unfold Mlq.move
      repeat' split
      all_goals rfl
  | remove h =>
    refine .inl ?_
    simp only [Mlq.apply]
    split
    · exact unchanged
    · refine ⟨keeps_remove m h, ?_⟩
      unfold Mlq.remove
      split <;> rfl

def Owns (m : Mlq F A) (id : Nat) (h : PqHandle) : Prop := id < m.serial ∧ ∀ e ∈ m.entries, e.id = id → e.handle = h

theorem Owns.apply (owns : Owns m id h) (call : PqCall F A) (reply : PqReply F A) : Owns (m.apply call reply) id h := by
  rcases apply_keeps m call reply with ⟨keeps, serial⟩ | ⟨layer, fn, arg, pushed⟩
  · refine ⟨serial ▸ owns.1, fun e queued own => ?_⟩
    obtain ⟨l, inLayer⟩ := Mlq.mem_entries.mp queued
    obtain ⟨e', queued', sameId, sameHandle⟩ := keeps l e inLayer
    exact sameHandle ▸ owns.2 e' queued' (sameId.trans own)
  · rw [pushed]
    refine ⟨Nat.lt_succ_of_lt owns.1, fun e queued own => ?_⟩
    obtain ⟨l, inLayer⟩ := Mlq.mem_entries.mp queued
    rcases mem_update inLayer with ⟨rfl, appended⟩ | old
    · rw [mem_append, mem_singleton] at appended
      rcases appended with old | rfl
      · exact owns.2 e (Mlq.mem_entries.mpr ⟨l, old⟩) own
      · exact absurd own (ne_of_gt owns.1)
    · exact owns.2 e (Mlq.mem_entries.mpr ⟨l, old⟩) own

theorem Owns.track (owns : Owns m id h) (pq : PriorityQueue F A) (calls : List (PqCall F A)) :
    Owns (calls.foldl track (pq, m)).2 id h := by
  induction calls generalizing pq m with
  | nil => exact owns
  | cons call calls ih => exact ih (owns.apply call _) _

theorem owns_push (rep : Represents pq m) (layer : Layer)
    (h : PqHandle) (fn : F) (arg : Option A) : Owns (m.push layer h fn arg) m.serial h := by
  refine ⟨Nat.lt_succ_self _, fun e queued own => ?_⟩
  obtain ⟨l, inLayer⟩ := Mlq.mem_entries.mp queued
  have fresh : ∀ l, e ∉ m.layers l := fun l old =>
    absurd own (ne_of_lt (rep.serial e (Mlq.mem_entries.mpr ⟨l, old⟩)))
  rcases mem_update inLayer with ⟨rfl, appended⟩ | old
  · rw [mem_append, mem_singleton] at appended
    rcases appended with old | rfl
    · exact absurd old (fresh l)
    · rfl
  · exact absurd old (fresh l)

/-- The handle is not negative, and works as long as the task is there. -/
def HandleWorks (state : PriorityQueue F A × Mlq F A) (priority : Int) (fn : F) (arg : Option A) : Prop :=
  let h := (pqPush state.1 priority (some fn) arg).1
  0 ≤ h.toInt ∧ ∀ later : List (PqCall F A), let after := later.foldl track (track state (.push priority fn arg))
    ∀ e ∈ after.2.entries, e.id = state.2.serial → Obeys after.1 h e.slot

theorem pqMakeHandle_nonneg_iff (gen : BitVec 16) (slot : Slot) :
    0 ≤ (pqMakeHandle gen slot).toInt ↔ gen.toNat < 32768 := by
  have packed := pqMakeHandle_toNat gen slot
  rw [BitVec.toInt_eq_toNat_cond, packed]
  split <;> omega

theorem Represents.addresses_own (rep : Represents pq m) (queued : e ∈ m.entries) (nonneg : 0 ≤ e.handle.toInt) :
    Mlq.addresses e.handle e = true := by
  obtain ⟨layer, inLayer⟩ := Mlq.mem_entries.mp queued
  have slot : pqHandleSlot e.handle = e.slot.val := by
    rw [(rep.filled layer e inLayer).handle, pqHandleSlot_make]
  have sign : e.handle.msb = false := by
    rw [BitVec.msb_eq_toInt]
    simpa using nonneg
  simp [Mlq.addresses, slot, sign]

theorem Represents.track_push (rep : Represents pq m)
    (valid : priorityValid priority = true) (room : pq.freeTop ≠ 0) (fn : F)
    (arg : Option A) :
    ∃ slot, (pqPush pq priority (some fn) arg).1 = pqMakeHandle pq.nextGen slot ∧
      track (pq, m) (.push priority fn arg) = ((pqPush pq priority (some fn) arg).2,
        m.push (layerOf priority) (pqMakeHandle pq.nextGen slot) fn arg) := by
  obtain ⟨slot, handle, -, -⟩ := rep.place valid room fn arg
  have notError := pqMakeHandle_ne_error pq.nextGen slot
  exact ⟨slot, handle, by simp only [track, pqCall, Mlq.apply, handle, if_neg notError]⟩

theorem handleWorks_iff (rep : Represents pq m) (valid : priorityValid priority = true) (room : pq.freeTop ≠ 0) (fn : F)
    (arg : Option A) : HandleWorks (pq, m) priority fn arg ↔ pq.nextGen.toNat < 32768 := by
  obtain ⟨slot, handle, pushed⟩ := rep.track_push valid room fn arg
  have placed := track_represents rep [.push priority fn arg]
  unfold HandleWorks
  simp only [handle, pushed, pqMakeHandle_nonneg_iff, foldl_cons, foldl_nil] at placed ⊢
  refine ⟨fun works => works.1, fun small => ⟨small, fun later e queued own => ?_⟩⟩
  have rep' := track_represents placed later
  have owned := ((owns_push rep (layerOf priority) _ fn arg).track _ later).2 e queued own
  have addressed := rep'.addresses_own queued (by rw [owned]; exact (pqMakeHandle_nonneg_iff _ _).mpr small)
  have obeys := obeys_of_valid (rep'.handleValid_of_addresses queued addressed)
  rwa [Represents.addresses_slot addressed, owned] at obeys

/-- Exactly when the generation counter is below `0x8000`: from there on the shift reaches the sign bit. -/
theorem push_handleWorks_iff (raw : PriorityQueue F A) (calls : List (PqCall F A))
    {priority : Int} (valid : priorityValid priority = true)
    (room : (history raw calls).1.freeTop ≠ 0) (fn : F) (arg : Option A) :
    HandleWorks (history raw calls) priority fn arg ↔ (history raw calls).1.nextGen.toNat < 32768 :=
  handleWorks_iff (history_represents raw calls) valid room fn arg

theorem push_handleWorks_first : HandleWorks (history (default : PriorityQueue Unit Unit) []) 0 () none :=
  (push_handleWorks_iff default [] (by decide) (by decide) () none).mpr (by decide)

/-! ### A long history -/

theorem Represents.freeTop_of_empty (rep : Represents pq m) (empty : m.layers = fun _ => []) : pq.freeTop = 128 := by
  have room := rep.room
  have none : m.entries = [] := by simp [Mlq.entries, empty]
  simpa [none] using room

def pushPop : List (PqCall Unit Unit) := [.push 0 () none, .pop true]

structure Idle (pq : PriorityQueue Unit Unit) (m : Mlq Unit Unit) : Prop where
  rep : Represents pq m
  empty : m.layers = fun _ => []
  top : pq.freeStack 127 = 127

section
variable {pq : PriorityQueue Unit Unit} {m : Mlq Unit Unit}

theorem Idle.push (idle : Idle pq m) : track (pq, m) (.push 0 () none) = ((pqPush pq 0 (some ()) none).2,
        m.push 0 (pqMakeHandle pq.nextGen 127) () none) ∧
      (pqPush pq 0 (some ()) none).2.freeTop = 127 := by
  have free := idle.rep.freeTop_of_empty idle.empty
  have valid : priorityValid 0 = true := by decide
  obtain ⟨slot, handle, pushed⟩ := idle.rep.track_push valid (free ▸ by decide) () none
  have result : (pqPush pq 0 (some ()) none).1 = pqMakeHandle pq.nextGen 127 := by
    simp [pqPush, valid, free, appendToLayer, idle.top]
  refine ⟨?_, by simp [pqPush, valid, free, appendToLayer]⟩
  rw [pushed, ← handle, result]
  rfl

theorem pop_single {e : Entry Unit Unit} (rep : Represents pq m) (single : m.layers 0 = [e]) :
    track (pq, m) (.pop true) = ((pqPop pq true).2, m.popFrom 0) ∧ (pqPop pq true).2.freeStack pq.freeTop = e.slot := by
  have first : m.firstNonempty = some 0 := by
    rw [Mlq.firstNonempty_eq_some, single]
    exact ⟨cons_ne_nil _ _, fun lower below => absurd below (Fin.not_lt_zero lower)⟩
  obtain ⟨lowest, nonempty⟩ := ctz_firstNonempty rep first
  have head : pq.layerHead 0 = some e.slot := by rw [rep.linked.head, Mlq.slots, single]; rfl
  have occupied : pq.size ≠ 0 := by
    have member : e ∈ m.entries := Mlq.mem_entries.mpr ⟨0, by simp [single]⟩
    have := length_pos_of_mem member
    rw [rep.size]
    omega
  have result := (pqPop_spec rep true).1
  refine ⟨by simp [track, pqCall, Mlq.apply, result, popReply, first, single], ?_⟩
  simp [pqPop, occupied, nonempty, lowest, popLayerHead, head, freeSlot, unlinkSlot]

theorem Idle.pushPop (idle : Idle pq m) : ∃ pq' m', pushPop.foldl track (pq, m) = (pq', m') ∧ Idle pq' m' ∧
      m'.placed = m.placed + 1 ∧ m'.retired = pqMakeHandle pq.nextGen 127 :: m.retired := by
  have placed := track_represents idle.rep [.push 0 () none]
  have rep := track_represents idle.rep Sched.pushPop
  obtain ⟨pushed, free⟩ := idle.push
  simp only [Sched.pushPop, foldl_cons, foldl_nil, pushed] at placed rep ⊢
  have cells : (m.push 0 (pqMakeHandle pq.nextGen 127) () none).layers 0 = [⟨m.serial, pqMakeHandle pq.nextGen 127, 127,
        ⟨some (), none, 0, BitVec.ofNat 32 m.placed, 0, 0⟩⟩] := by
    simp [Mlq.push, idle.empty, slotOf_make]
  obtain ⟨popped, top⟩ := pop_single placed cells
  rw [popped] at rep ⊢
  have after : (m.push 0 (pqMakeHandle pq.nextGen 127) () none).popFrom 0 = { m with
        placed := m.placed + 1
        serial := m.serial + 1
        retired := pqMakeHandle pq.nextGen 127 :: m.retired } := by
    unfold Mlq.popFrom
    simp [Mlq.push, idle.empty]
  rw [after] at rep ⊢
  exact ⟨_, _, rfl, ⟨rep, idle.empty, by rw [free] at top; exact top⟩, rfl, rfl⟩

end

theorem pushPop_run (n : Nat) : ∃ pq m, history default ((replicate n pushPop).flatten) = (pq, m) ∧ Idle pq m ∧
      m.placed = n ∧ (n ≠ 0 → 127#32 ∈ m.retired) := by
  induction n with
  | zero =>
    refine ⟨_, _, rfl, ⟨history_represents default [], rfl, by decide⟩, rfl, by simp⟩
  | succ n ih =>
    obtain ⟨pq, m, run, idle, placed, retired⟩ := ih
    obtain ⟨pq', m', step, idle', placed', retired'⟩ := idle.pushPop
    refine ⟨pq', m', ?_, idle', by omega, fun _ => ?_⟩
    · rw [replicate_succ', flatten_append, flatten_singleton, history_append, run, step]
    · rw [retired', mem_cons]
      rcases Nat.eq_zero_or_pos n with rfl | positive
      · left
        rw [idle.rep.nextGen, placed]
        decide
      · exact .inr (retired (ne_of_gt positive))

theorem collides_pushPop (positive : n ≠ 0) (round : n % 65536 = 0) :
    Collides (history default ((replicate n pushPop).flatten ++ [.push 0 () none])).2 127#32 := by
  obtain ⟨pq, m, run, idle, placed, retired⟩ := pushPop_run n
  have gen : pq.nextGen = 0 := by
    rw [idle.rep.nextGen, placed]
    apply BitVec.eq_of_toNat_eq
    simpa using round
  rw [history_append, run, foldl_cons, foldl_nil, idle.push.1, gen]
  refine ⟨⟨m.serial, 127#32, 127, ⟨some (), none, 0, BitVec.ofNat 32 m.placed, 0, 0⟩⟩,
    Mlq.mem_entries.mpr ⟨0, ?_⟩, ?_, .inr (retired positive)⟩
  · simp only [Mlq.push, idle.empty, Function.update_self, nil_append, mem_singleton]
    rfl
  · simp only [Mlq.addresses]
    decide

/-- 383 after one push, which returned 127; and 127 after 65536 pairs of a push and a pop and one more push. -/
theorem handleSafe_fails : (¬ HandleSafe (history (default : PriorityQueue Unit Unit) [.push 0 () none]).1
      (history (default : PriorityQueue Unit Unit) [.push 0 () none]).2 383#32) ∧
    ¬ HandleSafe (history default ((replicate 65536 pushPop).flatten ++ [.push 0 () none])).1
      (history default ((replicate 65536 pushPop).flatten ++ [.push 0 () none])).2
      127#32 := by
  rw [handleSafe_iff (history_represents _ _), handleSafe_iff (history_represents _ _), not_not, not_not]
  exact ⟨collides_foreign, collides_pushPop (by decide) (by decide)⟩

theorem handleWorks_pushPop (large : 32768 ≤ n % 65536) :
    ¬ HandleWorks (history default ((replicate n pushPop).flatten)) 0 () none := by
  obtain ⟨pq, m, run, idle, placed, -⟩ := pushPop_run n
  rw [run, handleWorks_iff idle.rep (by decide)
    (idle.rep.freeTop_of_empty idle.empty ▸ by decide), idle.rep.nextGen, placed,
    BitVec.toNat_ofNat]
  omega

theorem push_handleWorks_fails : ¬ HandleWorks (history default ((replicate 32768 pushPop).flatten)) 0 () none :=
  handleWorks_pushPop (by decide)

end Flinstone.Sched
