import Flinstone.Sched.Links

/-! # The queue refines four lists -/

namespace Flinstone.Sched
open Flinstone.Lib List

variable {F A : Type}

theorem pqHandleSlot_eq (h : PqHandle) : pqHandleSlot h = h.toNat % 256 := by
  exact Nat.and_two_pow_sub_one_eq_mod h.toNat 8

theorem pqHandleGen_toNat (h : PqHandle) : (pqHandleGen h).toNat = h.toNat / 65536 := by
  simp only [pqHandleGen, BitVec.toNat_setWidth, BitVec.toNat_ushiftRight, Nat.shiftRight_eq_div_pow]
  omega

variable (gen : BitVec 16)

theorem pqMakeHandle_toNat (slot : Slot) :
    (pqMakeHandle gen slot).toNat = gen.toNat * 65536 + slot.val := by
  have low : (BitVec.ofNat 32 slot.val &&& 0xFF#32).toNat = slot.val := by
    have := pqHandleSlot_eq (BitVec.ofNat 32 slot.val)
    rw [pqHandleSlot] at this
    rw [this, BitVec.toNat_ofNat]
    omega
  have high : (gen.setWidth 32 <<< 16).toNat = gen.toNat <<< 16 := by
    simp only [BitVec.toNat_shiftLeft, BitVec.toNat_setWidth, Nat.shiftLeft_eq]
    omega
  rw [pqMakeHandle, BitVec.toNat_or, high, low,
    ← Nat.shiftLeft_add_eq_or_of_lt (by omega : slot.val < 2 ^ 16), Nat.shiftLeft_eq]

@[simp] theorem pqHandleSlot_make (slot : Slot) :
    pqHandleSlot (pqMakeHandle gen slot) = slot.val := by
  rw [pqHandleSlot_eq, pqMakeHandle_toNat]
  omega

@[simp] theorem pqHandleGen_make (slot : Slot) : pqHandleGen (pqMakeHandle gen slot) = gen := by
  apply BitVec.eq_of_toNat_eq
  rw [pqHandleGen_toNat, pqMakeHandle_toNat]
  omega

variable {slot : Slot} {m : Mlq F A} {β : Type} {layer : Layer}

theorem slotOf_eq {h : PqHandle} (packed : pqHandleSlot h = slot.val) : slotOf h = slot := by
  simp [slotOf, packed]

@[simp] theorem slotOf_make (slot : Slot) :
    slotOf (pqMakeHandle gen slot) = slot := slotOf_eq (pqHandleSlot_make gen slot)

theorem pqMakeHandle_ne_error (slot : Slot) : pqMakeHandle gen slot ≠ -1 := by
  intro error
  have value := congrArg BitVec.toNat error
  rw [pqMakeHandle_toNat] at value
  have minus : (-1 : BitVec 32).toNat = 4294967295 := by decide
  omega

theorem Mlq.mem_entries {e : Entry F A} : e ∈ m.entries ↔ ∃ layer, e ∈ m.layers layer := by
  simp [entries]

variable (lists : Layer → List β)

theorem flatMap_update_perm (layer : Layer) (cells : List β) :
    ((finRange 4).flatMap (Function.update lists layer cells)).Perm
      (cells ++ ((finRange 4).erase layer).flatMap lists) := by
  have perm := perm_cons_erase (mem_finRange layer)
  refine (perm.flatMap_right _).trans ?_
  rw [flatMap_cons, Function.update_self]
  refine Perm.append_left _ (Perm.of_eq (flatMap_congr fun other member => ?_))
  have different : other ≠ layer := fun same =>
    (nodup_finRange 4).not_mem_erase (same ▸ member)
  rw [Function.update_of_ne different]

theorem flatMap_perm (layer : Layer) : ((finRange 4).flatMap lists).Perm
      (lists layer ++ ((finRange 4).erase layer).flatMap lists) := by
  simpa using flatMap_update_perm lists layer (lists layer)

theorem flatMap_split_perm {lists : Layer → List β}
    {front back : List β} {cell : β} (split : lists layer = front ++ cell :: back) :
    ((finRange 4).flatMap lists).Perm
      (cell :: (finRange 4).flatMap (Function.update lists layer (front ++ back))) := by
  refine (flatMap_perm lists layer).trans ?_
  refine Perm.trans ?_ ((flatMap_update_perm lists layer (front ++ back)).symm.cons cell)
  rw [split, ← cons_append]
  exact Perm.append_right _ perm_middle

theorem flatMap_append_perm (layer : Layer) (cell : β) :
    ((finRange 4).flatMap (Function.update lists layer (lists layer ++ [cell]))).Perm
      (cell :: (finRange 4).flatMap lists) := by
  have split : Function.update lists layer (lists layer ++ [cell]) layer = lists layer ++ cell :: [] := by simp
  simpa using flatMap_split_perm split

theorem Mlq.slots_flatMap (m : Mlq F A) : m.entries.map Entry.slot = (finRange 4).flatMap m.slots := by
  rw [entries, map_flatMap]
  rfl

theorem Mlq.mem_slots : slot ∈ m.slots layer ↔ ∃ e ∈ m.layers layer, e.slot = slot := by
  simp [slots]

theorem slots_update (layers : Layer → List (Entry F A)) (layer : Layer)
    (cells : List (Entry F A)) (placed serial : Nat) (retired : List PqHandle) :
    Mlq.slots ⟨Function.update layers layer cells, placed, serial, retired⟩ =
      Function.update (fun l => (layers l).map Entry.slot) layer (cells.map Entry.slot) := by
  funext l
  by_cases same : l = layer
  · subst same
    simp [Mlq.slots]
  · simp [Mlq.slots, same]

theorem freeSlots_freeSlot (pq : PriorityQueue F A) (slot : Slot) :
    (freeSlot pq slot).freeSlots = pq.freeSlots ++ [slot] := by
  simp only [PriorityQueue.freeSlots, freeSlot, range_succ, map_append]
  congr 1
  · refine map_congr_left fun i member => ?_
    rw [Function.update_of_ne (ne_of_lt (mem_range.mp member))]
  · simp

/-! ## The representation -/

namespace Represents
variable {pq : PriorityQueue F A} {m : Mlq F A}

theorem nodup (rep : Represents pq m) : (m.entries.map Entry.slot ++ pq.freeSlots).Nodup :=
  rep.partition.nodup_iff.mpr (nodup_finRange 128)

theorem distinct (rep : Represents pq m) : Distinct m.slots := by
  rw [Distinct, ← Mlq.slots_flatMap]
  exact (nodup_append.mp rep.nodup).1

theorem room (rep : Represents pq m) : m.entries.length + pq.freeTop = 128 := by
  simpa [PriorityQueue.freeSlots] using rep.partition.length_eq

theorem free_absent (rep : Represents pq m) {slot : Slot} (free : slot ∈ pq.freeSlots)
    (layer : Layer) : slot ∉ m.slots layer := by
  intro member
  obtain ⟨e, queued, rfl⟩ := Mlq.mem_slots.mp member
  have inEntries : e.slot ∈ m.entries.map Entry.slot := mem_map_of_mem (Mlq.mem_entries.mpr ⟨layer, queued⟩)
  exact (nodup_append.mp rep.nodup).2.2 _ inEntries _ free rfl

theorem slot_cases (rep : Represents pq m) (slot : Slot) : (∃ e ∈ m.entries, e.slot = slot) ∨ slot ∈ pq.freeSlots := by
  have member := rep.partition.mem_iff.mpr (mem_finRange slot)
  simpa using member

variable {e other : Entry F A} {layer l : Layer} {front back : List (Entry F A)} {h : PqHandle}

theorem entry_unique (rep : Represents pq m) {e' : Entry F A} (queued : e ∈ m.entries)
    (queued' : e' ∈ m.entries) (same : e.slot = e'.slot) : e = e' :=
  inj_on_of_nodup_map (nodup_append.mp rep.nodup).1 queued queued' same

theorem entries_split (split : m.layers layer = front ++ e :: back) : m.entries.Perm
      (e :: (finRange 4).flatMap (Function.update m.layers layer (front ++ back))) :=
  flatMap_split_perm split

theorem slot_ne_of_split (rep : Represents pq m) (split : m.layers layer = front ++ e :: back)
    (member : other ∈ Function.update m.layers layer (front ++ back) l) : other.slot ≠ e.slot := by
  have perm := (entries_split split).map Entry.slot
  have nodup := perm.nodup_iff.mp (nodup_append.mp rep.nodup).1
  rw [map_cons, nodup_cons] at nodup
  intro same
  refine nodup.1 (mem_map.mpr ⟨other, ?_, same⟩)
  exact mem_flatMap.mpr ⟨l, mem_finRange l, member⟩

theorem mem_of_split (split : m.layers layer = front ++ e :: back)
    (member : other ∈ Function.update m.layers layer (front ++ back) l) : other ∈ m.layers l := by
  by_cases same : l = layer
  · subst same
    rw [Function.update_self, mem_append] at member
    rcases member with inFront | inBack <;> simp [*]
  · rwa [Function.update_of_ne same] at member

theorem unlink (rep : Represents pq m) (split : m.layers layer = front ++ e :: back) : Linked (unlinkSlot pq e.slot)
      (Function.update m.slots layer ((front ++ back).map Entry.slot)) := by
  have queued : e ∈ m.layers layer := by simp [split]
  have slots : m.slots layer = front.map Entry.slot ++ e.slot :: back.map Entry.slot := by
    simp [Mlq.slots, split]
  have priority : (pq.slots e.slot).priority = layer := by
    rw [(rep.filled layer e queued).task, (rep.filled layer e queued).priority]
  simpa using rep.linked.unlink rep.distinct slots priority

theorem discard (rep : Represents pq m) (split : m.layers layer = front ++ e :: back) (retired : List PqHandle) :
    Represents { freeSlot (unlinkSlot pq e.slot) e.slot with size := pq.size - 1 }
      { m with layers := Function.update m.layers layer (front ++ back), retired := retired } := by
  have free : PriorityQueue.freeSlots { freeSlot (unlinkSlot pq e.slot) e.slot with size := pq.size - 1 } =
      pq.freeSlots ++ [e.slot] := freeSlots_freeSlot (unlinkSlot pq e.slot) e.slot
  have perm := entries_split split
  have linked := rep.unlink split
  refine ⟨?_, ?_, ?_, fun l other member => ?_, fun slot member => ?_, rep.nextSeq, rep.nextGen,
    ?_, fun other member => ?_⟩
  · rw [slots_update]
    exact ⟨linked.threaded, linked.head, linked.tail, linked.mask⟩
  · rw [free]
    refine Perm.trans ?_ rep.partition
    refine Perm.trans ?_ ((perm.map Entry.slot).symm.append_right _)
    rw [← append_assoc]
    exact perm_append_singleton _ _
  · have length := perm.length_eq
    rw [rep.size, length]
    simp [Mlq.entries]
  · have old := rep.filled l other (mem_of_split split member)
    refine ⟨?_, old.priority, old.callable, old.handle⟩
    change Function.update pq.slots e.slot .zero other.slot = other.task
    rw [Function.update_of_ne (rep.slot_ne_of_split split member), old.task]
  · rw [free, mem_append] at member
    change (Function.update pq.slots e.slot .zero slot).fn = none
    by_cases same : slot = e.slot
    · simp [same, PqTask.zero]
    · rw [Function.update_of_ne same]
      exact rep.free slot (by simpa [same] using member)
  · exact (nodup_cons.mp ((perm.map Entry.id).nodup_iff.mp rep.ids)).2
  · exact rep.serial other (perm.mem_iff.mpr (mem_cons_of_mem _ member))

theorem relocate (rep : Represents pq m) {source target : Layer}
    (split : m.layers source = front ++ e :: back) (different : source ≠ target) :
    Represents (appendToLayer (unlinkSlot pq e.slot) e.slot target) { m with
        layers := Function.update (Function.update m.layers source (front ++ back)) target
          (m.layers target ++ [{ e with task := { e.task with priority := target } }]) } := by
  have queued : e ∈ m.layers source := by simp [split]
  have stays : Function.update m.layers source (front ++ back) target = m.layers target :=
    Function.update_of_ne different.symm _ _
  -- the two intermediate families of slot lists
  have middle : (fun l => (Function.update m.layers source (front ++ back) l).map Entry.slot) =
      Function.update m.slots source ((front ++ back).map Entry.slot) :=
    slots_update m.layers source (front ++ back) m.placed m.serial m.retired
  have absent : ∀ l, e.slot ∉ Function.update m.slots source ((front ++ back).map Entry.slot) l := by
    intro l member
    rw [← middle] at member
    obtain ⟨other, inList, same⟩ := mem_map.mp member
    exact rep.slot_ne_of_split split inList same
  have distinct : Distinct (Function.update m.slots source ((front ++ back).map Entry.slot)) := by
    have slots : m.slots source = front.map Entry.slot ++ e.slot :: back.map Entry.slot := by
      simp [Mlq.slots, split]
    have nodup := (flatMap_split_perm slots).nodup_iff.mp rep.distinct
    simpa [Distinct] using (nodup_cons.mp nodup).2
  have linked := (rep.unlink split).append distinct absent target
  have entries : ((finRange 4).flatMap (Function.update (Function.update m.layers source (front ++ back)) target
        (m.layers target ++ [{ e with task := { e.task with priority := target } }]))).Perm
      ({ e with task := { e.task with priority := target } } ::
        (finRange 4).flatMap (Function.update m.layers source (front ++ back))) := by
    rw [← stays]
    exact flatMap_append_perm _ _ _
  have cases : ∀ l, ∀ other ∈ Function.update (Function.update m.layers source (front ++ back))
      target (m.layers target ++ [{ e with task := { e.task with priority := target } }]) l,
      (l = target ∧ other = { e with task := { e.task with priority := target } }) ∨
      (other ∈ m.layers l ∧ other.slot ≠ e.slot) := by
    intro l other member
    by_cases same : l = target
    · subst same
      rw [Function.update_self, mem_append, mem_singleton] at member
      rcases member with old | rfl
      · rw [← stays] at old
        exact .inr ⟨mem_of_split split old, rep.slot_ne_of_split split old⟩
      · exact .inl ⟨rfl, rfl⟩
    · rw [Function.update_of_ne same] at member
      exact .inr ⟨mem_of_split split member, rep.slot_ne_of_split split member⟩
  refine ⟨?_, ?_, ?_, fun l other member => ?_, fun slot member => ?_, rep.nextSeq, rep.nextGen,
    ?_, fun other member => ?_⟩
  · rw [slots_update, middle]
    have target' : Function.update m.slots source ((front ++ back).map Entry.slot) target =
        m.slots target := Function.update_of_ne different.symm _ _
    rw [target'] at linked
    simpa [Mlq.slots] using linked
  · refine Perm.trans (List.Perm.append_right _ ?_) rep.partition
    exact (entries.map Entry.slot).trans ((entries_split split).map Entry.slot).symm
  · change pq.size = _
    rw [rep.size, (entries_split split).length_eq]
    exact congrArg Nat.cast entries.length_eq.symm
  · rcases cases l other member with ⟨rfl, rfl⟩ | ⟨inLayer, distinctSlot⟩
    · have old := rep.filled source e queued
      exact ⟨by simp [appendToLayer, unlinkSlot, old.task], rfl, old.callable, old.handle⟩
    · have old := rep.filled l other inLayer
      refine ⟨?_, old.priority, old.callable, old.handle⟩
      change Function.update pq.slots e.slot _ other.slot = other.task
      rw [Function.update_of_ne distinctSlot, old.task]
  · have distinctSlot : slot ≠ e.slot := by
      rintro rfl
      exact rep.free_absent member source (Mlq.mem_slots.mpr ⟨e, queued, rfl⟩)
    change (Function.update pq.slots e.slot _ slot).fn = none
    rw [Function.update_of_ne distinctSlot]
    exact rep.free slot member
  · have ids := (entries.map Entry.id).trans ((entries_split split).map Entry.id).symm
    exact ids.nodup_iff.mpr rep.ids
  · rcases mem_cons.mp (entries.mem_iff.mp member) with rfl | old
    · exact rep.serial e (Mlq.mem_entries.mpr ⟨source, queued⟩)
    · exact rep.serial other ((entries_split split).mem_iff.mpr (mem_cons_of_mem _ old))

theorem place (rep : Represents pq m) {priority : Int} (valid : priorityValid priority = true)
    (room : pq.freeTop ≠ 0) (fn : F) (arg : Option A) :
    ∃ slot, (pqPush pq priority (some fn) arg).1 = pqMakeHandle pq.nextGen slot ∧ (∀ e ∈ m.entries, e.slot ≠ slot) ∧
      Represents (pqPush pq priority (some fn) arg).2
        (m.push (layerOf priority) (pqMakeHandle pq.nextGen slot) fn arg) := by
  obtain ⟨top, freeTop⟩ := Nat.exists_eq_succ_of_ne_zero room
  let slot := pq.freeStack top
  have free : pq.freeSlots = (range top).map pq.freeStack ++ [slot] := by
    simp [PriorityQueue.freeSlots, freeTop, range_succ, slot]
  have isFree : slot ∈ pq.freeSlots := by simp [free]
  have absent := fun l => rep.free_absent isFree l
  have linked := rep.linked.append rep.distinct absent (layerOf priority)
  have fresh : ∀ e ∈ m.entries, e.slot ≠ slot := by
    intro e queued same
    obtain ⟨l, inLayer⟩ := Mlq.mem_entries.mp queued
    exact absent l (Mlq.mem_slots.mpr ⟨e, inLayer, same⟩)
  refine ⟨slot, ?_, fresh, ?_⟩
  · simp [pqPush, valid, freeTop, appendToLayer, slot]
  let layer := layerOf priority
  let entry : Entry F A := ⟨m.serial, pqMakeHandle pq.nextGen slot, slot,
    ⟨some fn, arg, layer, BitVec.ofNat 32 m.placed, 0, 0⟩⟩
  have pushed : m.push layer (pqMakeHandle pq.nextGen slot) fn arg = { m with
        layers := Function.update m.layers layer (m.layers layer ++ [entry])
        placed := m.placed + 1
        serial := m.serial + 1 } := by
    simp [Mlq.push, entry]
  have cases : ∀ l, ∀ other ∈ Function.update m.layers layer (m.layers layer ++ [entry]) l,
      (l = layer ∧ other = entry) ∨ (other ∈ m.layers l ∧ other.slot ≠ slot) := by
    intro l other member
    have old : other ∈ m.layers l → other.slot ≠ slot := fun inLayer =>
      fresh other (Mlq.mem_entries.mpr ⟨l, inLayer⟩)
    by_cases same : l = layer
    · subst same
      rw [Function.update_self, mem_append, mem_singleton] at member
      rcases member with inLayer | rfl
      · exact .inr ⟨inLayer, old inLayer⟩
      · exact .inl ⟨rfl, rfl⟩
    · rw [Function.update_of_ne same] at member
      exact .inr ⟨member, old member⟩
  have entries : ((finRange 4).flatMap
      (Function.update m.layers layer (m.layers layer ++ [entry]))).Perm (entry :: m.entries) :=
    flatMap_append_perm _ _ _
  have after : (pqPush pq priority (some fn) arg).2 = { appendToLayer { pq with
          freeTop := top
          slots := Function.update pq.slots slot
            { pq.slots slot with fn := some fn, arg, seq := pq.nextSeq, quantum := 0, runtime := 0 }
          nextSeq := pq.nextSeq + 1
          gen := Function.update pq.gen slot pq.nextGen
          nextGen := pq.nextGen + 1 } slot layer with size := pq.size + 1 } := by
    simp [pqPush, valid, freeTop, appendToLayer, slot, layer]
  rw [pushed, after]
  refine ⟨?_, ?_, ?_, fun l other member => ?_, fun s member => ?_, ?_, ?_, ?_, fun other member => ?_⟩
  · rw [slots_update]
    have slots : (m.layers layer ++ [entry]).map Entry.slot = m.slots layer ++ [slot] := by
      simp [Mlq.slots, entry]
    rw [slots]
    exact ⟨linked.threaded, linked.head, linked.tail, linked.mask⟩
  · refine Perm.trans ?_ rep.partition
    rw [free]
    refine ((entries.map Entry.slot).append_right _).trans ?_
    rw [map_cons, ← append_assoc, cons_append]
    exact (perm_append_singleton _ _).symm
  · rw [rep.size]
    have length := entries.length_eq
    simp only [Mlq.entries] at length ⊢
    rw [length]
    simp
  · rcases cases l other member with ⟨rfl, rfl⟩ | ⟨inLayer, distinctSlot⟩
    · exact ⟨by simp [appendToLayer, entry, rep.nextSeq], rfl, rfl, by simp [appendToLayer, entry]⟩
    · have old := rep.filled l other inLayer
      exact ⟨by simp [appendToLayer, distinctSlot, old.task], old.priority, old.callable,
        by simp [appendToLayer, distinctSlot, old.handle]⟩
  · have inFree : s ∈ pq.freeSlots := by
      rw [free]
      exact mem_append_left _ member
    have distinctSlot : s ≠ slot := by
      rintro rfl
      have nodup := (nodup_append.mp rep.nodup).2.1
      rw [free] at nodup
      exact (nodup_append.mp nodup).2.2 _ member _ (by simp) rfl
    simp [appendToLayer, distinctSlot, rep.free s inFree]
  · change pq.nextSeq + 1 = _
    rw [rep.nextSeq]
    simp [BitVec.ofNat_add]
  · change pq.nextGen + 1 = _
    rw [rep.nextGen]
    simp [BitVec.ofNat_add]
  · refine (entries.map Entry.id).nodup_iff.mpr (nodup_cons.mpr ⟨fun used => ?_, rep.ids⟩)
    obtain ⟨old, queued, same⟩ := mem_map.mp used
    exact absurd (rep.serial old queued) (by simp [same, entry])
  · rcases mem_cons.mp (entries.mem_iff.mp member) with rfl | old
    · exact Nat.lt_succ_self _
    · exact Nat.lt_succ_of_lt (rep.serial other old)

theorem lookup_some (found : m.lookup h = some e) : e ∈ m.entries ∧ Mlq.addresses h e = true :=
  ⟨mem_of_find?_eq_some found, find?_some found⟩

theorem addresses_slot (addressed : Mlq.addresses h e = true) : slotOf h = e.slot := by
  simp only [Mlq.addresses, Bool.and_eq_true, beq_iff_eq] at addressed
  exact slotOf_eq addressed.1.2

theorem handleValid_eq (rep : Represents pq m) (h : PqHandle) : handleValid pq h = (m.lookup h).isSome := by
  cases found : m.lookup h with
  | some e =>
    obtain ⟨queued, addressed⟩ := lookup_some found
    obtain ⟨layer, inLayer⟩ := Mlq.mem_entries.mp queued
    have slot := addresses_slot addressed
    have callable := (rep.filled layer e inLayer).callable
    rw [← (rep.filled layer e inLayer).task, ← slot] at callable
    simp only [Mlq.addresses, Bool.and_eq_true, beq_iff_eq, Bool.not_eq_true'] at addressed
    obtain ⟨⟨positive, packed⟩, gen⟩ := addressed
    rw [(rep.filled layer e inLayer).handle, pqHandleGen_make, ← slot] at gen
    have bound : ¬ 128 ≤ pqHandleSlot h := by omega
    simp [handleValid, positive, bound, gen, Option.isSome_iff_ne_none.mp callable]
  | none =>
    -- a passing handle would find the task in its slot
    by_contra accepted
    have valid : handleValid pq h = true := by simpa using accepted
    unfold handleValid at valid
    split at valid
    · cases valid
    rename_i positive
    split at valid
    · cases valid
    split at valid
    · cases valid
    rename_i callable
    rcases rep.slot_cases (slotOf h) with ⟨e, queued, same⟩ | free
    · obtain ⟨layer, inLayer⟩ := Mlq.mem_entries.mp queued
      have packed : pqHandleSlot h = e.slot.val := by
        rw [same]
        simp only [slotOf, Fin.ofNat]
        omega
      have gen : pqHandleGen h = pqHandleGen e.handle := by
        rw [(rep.filled layer e inLayer).handle, pqHandleGen_make, same]
        exact (beq_iff_eq.mp valid).symm
      have missed := find?_eq_none.mp found e queued
      simp [Mlq.addresses, positive, packed, gen] at missed
    · exact callable (by simp [rep.free _ free])

theorem lookup_split (rep : Represents pq m) (found : m.lookup h = some e) :
    ∃ front back, m.layers e.task.priority = front ++ e :: back ∧
      (m.layers e.task.priority).eraseP (Mlq.addresses h) = front ++ back := by
  obtain ⟨queued, addressed⟩ := lookup_some found
  obtain ⟨layer, inLayer⟩ := Mlq.mem_entries.mp queued
  rw [(rep.filled layer e inLayer).priority]
  obtain ⟨e', front, back, -, addressed', split, erased⟩ := exists_of_eraseP inLayer addressed
  have queued' : e' ∈ m.entries := Mlq.mem_entries.mpr ⟨layer, by simp [split]⟩
  have same : e' = e := rep.entry_unique queued' queued
    ((addresses_slot addressed').symm.trans (addresses_slot addressed))
  subst same
  exact ⟨front, back, split, erased⟩

end Represents

theorem clear_entries (m : Mlq F A) : m.clear.entries = [] := flatMap_eq_nil_iff.mpr fun _ _ => rfl

theorem represents_init (pq : PriorityQueue F A) (m : Mlq F A) : Represents (pqInit pq) m.clear := by
  have free : (pqInit pq).freeSlots = finRange 128 := by
    apply ext_getElem
    · simp [PriorityQueue.freeSlots, pqInit]
    · intro i bound bound'
      apply Fin.ext
      have small : i < 128 := by simpa using bound'
      simpa [PriorityQueue.freeSlots, pqInit] using Nat.mod_eq_of_lt small
  refine ⟨⟨fun _ => threaded_nil _ _, fun _ => rfl, fun _ => rfl, fun i => ?_⟩, ?_, ?_,
    fun _ _ member => (by cases member), fun _ _ => rfl, rfl, rfl, ?_, fun e member => ?_⟩
  · simp [pqInit, Mlq.slots, Mlq.clear]
  · rw [free, clear_entries]
    rfl
  · rfl
  · exact nodup_nil
  · cases member

section Pops
variable {pq : PriorityQueue F A} {m : Mlq F A}

theorem popLayerHead_spec (rep : Represents pq m) (layer : Layer) :
    (popLayerHead pq layer true).1 = (m.layers layer).head?.map Entry.task ∧
      Represents (popLayerHead pq layer true).2 (m.popFrom layer) ∧
      (m.layers layer = [] → (popLayerHead pq layer true).2 = pq) := by
  have head := rep.linked.head layer
  cases cells : m.layers layer with
  | nil =>
    have none : pq.layerHead layer = none := by simp [head, Mlq.slots, cells]
    simp only [popLayerHead, none, Mlq.popFrom, cells]
    exact ⟨rfl, rep, fun _ => trivial⟩
  | cons e rest =>
    have some : pq.layerHead layer = some e.slot := by simp [head, Mlq.slots, cells]
    have popped := rep.discard (nil_append (e :: rest) ▸ cells) (e.handle :: m.retired)
    simp only [popLayerHead, some, Mlq.popFrom, cells]
    exact ⟨congrArg Option.some ((rep.filled layer e (by simp [cells])).task), popped, by simp⟩

theorem mask_test (mask : BitVec 64) (layer : Layer) :
    mask &&& (1#64 <<< layer.val) = 0#64 ↔ mask.getLsbD layer.val = false := by
  have nonzero : BitVec.twoPow 64 layer.val ≠ 0#64 := by
    intro zero
    have bit := congrArg (fun bits => bits.getLsbD layer.val) zero
    have small : layer.val < 64 := by omega
    simp [small] at bit
  rw [← BitVec.twoPow_eq, BitVec.and_twoPow]
  cases mask.getLsbD layer.val <;> simp [nonzero]

theorem ctz_firstNonempty (rep : Represents pq m) {layer : Layer} (first : m.firstNonempty = some layer) :
    builtinCtzll pq.nonemptyMask = layer.val ∧ pq.nonemptyMask ≠ 0#64 := by
  obtain ⟨nonempty, lower⟩ := Mlq.firstNonempty_eq_some.mp first
  have bit : pq.nonemptyMask.getLsbD layer.val = true :=
    (rep.linked.mask layer.val).mpr ⟨layer, rfl, by simpa [Mlq.slots] using nonempty⟩
  have clear : ∀ j < layer.val, pq.nonemptyMask.getLsbD j = false := by
    intro j below
    by_contra set
    obtain ⟨l, rfl, occupied⟩ := (rep.linked.mask j).mp (by simpa using set)
    exact occupied (by simp [Mlq.slots, lower l below])
  have found : (range 64).find? pq.nonemptyMask.getLsbD = some layer.val := by
    rw [find?_range_eq_some]
    refine ⟨bit, mem_range.mpr (by omega), fun j below => ?_⟩
    simp [clear j below]
  refine ⟨by simp [builtinCtzll, found], fun zero => ?_⟩
  simp [zero] at bit

theorem pqPop_spec (rep : Represents pq m) (out : Bool) : (pqPop pq out).1 =
        (if out then (m.firstNonempty.bind fun l => (m.layers l).head?).map Entry.task else none) ∧
      Represents (pqPop pq out).2 (if (pqPop pq out).1.isNone then m else m.firstNonempty.elim m m.popFrom) ∧
      ((pqPop pq out).1 = none → (pqPop pq out).2 = pq) := by
  cases out with
  | false => simpa [pqPop] using rep
  | true =>
    cases first : m.firstNonempty with
    | none =>
      have empty := Mlq.firstNonempty_eq_none.mp first
      have size : pq.size = 0 := by simp [rep.size, Mlq.entries, empty]
      simpa [pqPop, size] using rep
    | some layer =>
      obtain ⟨nonempty, -⟩ := Mlq.firstNonempty_eq_some.mp first
      obtain ⟨ctz, mask⟩ := ctz_firstNonempty rep first
      obtain ⟨e, rest, cells⟩ := exists_cons_of_ne_nil nonempty
      have size : pq.size ≠ 0 := by
        rw [rep.size]
        have queued : e ∈ m.entries := Mlq.mem_entries.mpr ⟨layer, by simp [cells]⟩
        have := length_pos_of_mem queued
        omega
      have pop : pqPop pq true = popLayerHead pq layer true := by
        simp [pqPop, size, mask, ctz]
      obtain ⟨task, popped, -⟩ := popLayerHead_spec rep layer
      rw [pop, task]
      simpa [cells] using popped

theorem pqPopFromLayer_spec (rep : Represents pq m) (layer : Int) (out : Bool) : (pqPopFromLayer pq layer out).1 =
        (if priorityValid layer && out then (m.layers (layerOf layer)).head?.map Entry.task
          else none) ∧
      Represents (pqPopFromLayer pq layer out).2
        (if (pqPopFromLayer pq layer out).1.isNone then m else m.popFrom (layerOf layer)) ∧
      ((pqPopFromLayer pq layer out).1 = none → (pqPopFromLayer pq layer out).2 = pq) := by
  by_cases usable : (priorityValid layer && out) = true
  · obtain ⟨valid, rfl⟩ : priorityValid layer = true ∧ out = true := by simpa using usable
    obtain ⟨task, popped, kept⟩ := popLayerHead_spec rep (layerOf layer)
    have bit := rep.linked.mask (layerOf layer).val
    cases cells : m.layers (layerOf layer) with
    | nil =>
      have clear : pq.nonemptyMask.getLsbD (layerOf layer).val = false := by
        by_contra set
        obtain ⟨l, same, occupied⟩ := bit.mp (by simpa using set)
        obtain rfl := Fin.ext same
        exact occupied (by simp [Mlq.slots, cells])
      simpa [pqPopFromLayer, valid, mask_test, clear] using rep
    | cons e rest =>
      have set : pq.nonemptyMask.getLsbD (layerOf layer).val = true :=
        bit.mpr ⟨layerOf layer, rfl, by simp [Mlq.slots, cells]⟩
      have pop : pqPopFromLayer pq layer true = popLayerHead pq (layerOf layer) true := by
        simp [pqPopFromLayer, valid, mask_test, set]
      rw [pop, task]
      simpa [valid, cells] using popped
  · have refused : pqPopFromLayer pq layer out = (none, pq) := by
      cases valid : priorityValid layer <;> cases out <;> simp_all [pqPopFromLayer]
    simpa [refused, usable] using rep

end Pops

section Handles
variable {pq : PriorityQueue F A} {m : Mlq F A}

theorem pqUpdate_spec (rep : Represents pq m) (h : PqHandle) (newPriority : Int) : (pqUpdate pq h newPriority).1 =
        (if priorityValid newPriority && (m.lookup h).isSome then 0 else -1) ∧
      Represents (pqUpdate pq h newPriority).2
        (if (pqUpdate pq h newPriority).1 = -1 then m else m.move h (layerOf newPriority)) ∧
      ((pqUpdate pq h newPriority).1 = -1 → (pqUpdate pq h newPriority).2 = pq) := by
  cases valid : priorityValid newPriority with
  | false => simpa [pqUpdate, valid] using rep
  | true =>
    cases found : m.lookup h with
    | none =>
      have refused : handleValid pq h = false := by simp [rep.handleValid_eq, found]
      simpa [pqUpdate, valid, refused] using rep
    | some e =>
      have accepted : handleValid pq h = true := by simp [rep.handleValid_eq, found]
      obtain ⟨queued, addressed⟩ := Represents.lookup_some found
      obtain ⟨layer, inLayer⟩ := Mlq.mem_entries.mp queued
      have slot := Represents.addresses_slot addressed
      have task := (rep.filled layer e inLayer).task
      by_cases same : e.task.priority = layerOf newPriority
      · simpa [pqUpdate, valid, accepted, slot, task, same, Mlq.move, found] using rep
      · obtain ⟨front, back, split, erased⟩ := rep.lookup_split found
        have result : pqUpdate pq h newPriority =
            (0, appendToLayer (unlinkSlot pq e.slot) e.slot (layerOf newPriority)) := by
          simp [pqUpdate, valid, accepted, slot, task, same]
        have moved := rep.relocate split same
        rw [result]
        simpa [Mlq.move, found, same, Mlq.without, erased] using moved

theorem pqRemove_spec (rep : Represents pq m) (h : PqHandle) :
    (pqRemove pq h).1 = (if (m.lookup h).isSome then 0 else -1) ∧
      Represents (pqRemove pq h).2 (if (pqRemove pq h).1 = -1 then m else m.remove h) ∧
      ((pqRemove pq h).1 = -1 → (pqRemove pq h).2 = pq) := by
  cases found : m.lookup h with
  | none =>
    have refused : handleValid pq h = false := by simp [rep.handleValid_eq, found]
    simpa [pqRemove, refused] using rep
  | some e =>
    have accepted : handleValid pq h = true := by simp [rep.handleValid_eq, found]
    obtain ⟨-, addressed⟩ := Represents.lookup_some found
    obtain ⟨front, back, split, erased⟩ := rep.lookup_split found
    have result : pqRemove pq h = (0, { freeSlot (unlinkSlot pq e.slot) e.slot with size := pq.size - 1 }) := by
      simp only [pqRemove, accepted, Represents.addresses_slot addressed]
      rfl
    have removed := rep.discard split (e.handle :: m.retired)
    rw [result]
    simpa [Mlq.remove, found, Mlq.without, erased] using removed

theorem setQuantum_slots (m : Mlq F A) (h : PqHandle) (quantum : BitVec 32) :
    (m.setQuantum h quantum).slots = m.slots := by
  funext layer
  simp only [Mlq.slots, Mlq.setQuantum, map_map]
  refine map_congr_left fun e _ => ?_
  simp only [Function.comp_apply]
  split <;> rfl

theorem setQuantum_of_none {m : Mlq F A} {h : PqHandle} (missing : m.lookup h = none)
    (quantum : BitVec 32) : m.setQuantum h quantum = m := by
  have unchanged : (m.setQuantum h quantum).layers = m.layers := by
    funext layer
    refine (map_congr_left fun e inLayer => ?_).trans (map_id _)
    have other := find?_eq_none.mp missing e (Mlq.mem_entries.mpr ⟨layer, inLayer⟩)
    simp [other]
  simp only [Mlq.setQuantum] at unchanged ⊢
  rw [unchanged]

theorem pqSetQuantum_spec (rep : Represents pq m) (h : PqHandle) (quantum : BitVec 32) :
    Represents (pqSetQuantum pq h quantum) (m.setQuantum h quantum) ∧
      (m.lookup h = none → pqSetQuantum pq h quantum = pq) := by
  cases found : m.lookup h with
  | none =>
    have refused : handleValid pq h = false := by simp [rep.handleValid_eq, found]
    rw [setQuantum_of_none found]
    simpa [pqSetQuantum, refused] using rep
  | some e =>
    refine ⟨?_, by simp⟩
    have accepted : handleValid pq h = true := by simp [rep.handleValid_eq, found]
    obtain ⟨queued, addressed⟩ := Represents.lookup_some found
    have slot := Represents.addresses_slot addressed
    have result : pqSetQuantum pq h quantum =
        { pq with slots := Function.update pq.slots e.slot { pq.slots e.slot with quantum } } := by
      simp [pqSetQuantum, accepted, slot]
    have entries : (m.setQuantum h quantum).entries.map Entry.slot = m.entries.map Entry.slot := by
      rw [Mlq.slots_flatMap, Mlq.slots_flatMap, setQuantum_slots]
    -- an entry of the new lists is an old one, with a new quantum if it is the addressed one
    have cases : ∀ layer, ∀ other ∈ (m.setQuantum h quantum).layers layer,
        (e ∈ m.layers layer ∧ other = { e with task := { e.task with quantum } }) ∨
        (other ∈ m.layers layer ∧ other.slot ≠ e.slot) := by
      intro layer other member
      obtain ⟨old, inLayer, rfl⟩ := mem_map.mp member
      have oldQueued : old ∈ m.entries := Mlq.mem_entries.mpr ⟨layer, inLayer⟩
      by_cases named : Mlq.addresses h old = true
      · have same : old = e := rep.entry_unique oldQueued queued ((Represents.addresses_slot named).symm.trans slot)
        subst same
        exact .inl ⟨inLayer, by simp [named]⟩
      · refine .inr ⟨by simpa [named] using inLayer, ?_⟩
        intro same
        rw [if_neg named] at same
        exact named ((rep.entry_unique oldQueued queued same) ▸ addressed)
    rw [result]
    refine ⟨?_, ?_, ?_, fun l other member => ?_, fun s free => ?_, rep.nextSeq, rep.nextGen,
      ?_, fun other member => ?_⟩
    · rw [setQuantum_slots]
      exact ⟨rep.linked.threaded, rep.linked.head, rep.linked.tail, rep.linked.mask⟩
    · rw [entries]
      exact rep.partition
    · have length := congrArg length entries
      simp only [length_map] at length
      rw [length]
      exact rep.size
    · rcases cases l other member with ⟨inLayer, rfl⟩ | ⟨inLayer, different⟩
      · have old := rep.filled l e inLayer
        exact ⟨by simp [old.task], old.priority, old.callable, old.handle⟩
      · have old := rep.filled l other inLayer
        exact ⟨by simp [different, old.task], old.priority, old.callable, old.handle⟩
    · have different : s ≠ e.slot := by
        rintro rfl
        obtain ⟨layer, inLayer⟩ := Mlq.mem_entries.mp queued
        exact rep.free_absent free layer (Mlq.mem_slots.mpr ⟨e, inLayer, rfl⟩)
      simp [different, rep.free s free]
    · have ids : (m.setQuantum h quantum).entries.map Entry.id = m.entries.map Entry.id := by
        simp only [Mlq.entries, map_flatMap]
        refine flatMap_congr fun layer _ => ?_
        simp only [Mlq.setQuantum, map_map]
        refine map_congr_left fun e _ => ?_
        simp only [Function.comp_apply]
        split <;> rfl
      rw [ids]
      exact rep.ids
    · obtain ⟨layer, inLayer⟩ := Mlq.mem_entries.mp member
      rcases cases layer other inLayer with ⟨-, rfl⟩ | ⟨old, -⟩
      · exact rep.serial e queued
      · exact rep.serial other (Mlq.mem_entries.mpr ⟨layer, old⟩)

end Handles

end Flinstone.Sched
