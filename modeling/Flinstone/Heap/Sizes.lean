import Flinstone.Heap.Safety

/-! # Sizes that wrap -/

namespace Flinstone.Heap
open Flinstone.Lib

def Machine.Fits (m : Machine) (size : Nat) : Prop := ∃ list, FreeList m list ∧ Room m.mem list m.brk size

abbrev HeapUse (first m : Machine) (live : List Payload) : Prop :=
  Reached (fun s call s' => HeapCall.run call s = some s')
    (fun s call => ∃ list, FreeList s.1 list ∧ call.Allowed list s) (first, []) (m, live)

structure Honours (start : Nat) (m : Machine) (size : Nat) (m' : Machine) : Prop where
  grows : m.heapEnd ≤ m'.heapEnd
  reply : m'.rax = 0 ∨ start + 16 ≤ m'.rax ∧ size ≤ sizeAt m' (m'.rax - 16) ∧
    m'.rax + sizeAt m' (m'.rax - 16) ≤ m'.heapEnd

variable {start size : Nat} {m m' : Machine} {live : List Payload} {blocks : List Block} {list : List Nat}

theorem tracks_of_use {first : Machine} (fresh : Fresh start first) (used : HeapUse first m live) :
    Tracks start (m, live) := by
  refine used.invariant ⟨[], [], fresh.tracked⟩ fun s call s' tracks allowed returned => ?_
  obtain ⟨list, chain, legal⟩ := allowed
  exact tracks.call (fun other same => chain.unique same ▸ legal) returned

theorem Tracked.honours (tracked : Tracked start m live blocks list) (room : Room m.mem list m.brk size)
    (answer : Answer) : ∃ m', (HeapCall.malloc size answer).exec m = some m' ∧ Honours start m size m' := by
  obtain ⟨m', run, set, grows, ⟨blocks', free', after⟩, -⟩ :=
    (tracked.compute { m.toRegisters with rdi := size } m.stack).malloc answer room
  refine ⟨m', run, grows, or_iff_not_imp_left.mpr fun nonnull => ?_⟩
  rw [HeapCall.live, if_neg nonnull] at after
  obtain ⟨above, long, below⟩ := after.place List.mem_cons_self
  have ended := after.ended.resolve_right fun unset => set unset.1
  exact ⟨above, long, ended ▸ below⟩

theorem unlinkFree_leaves (m : Machine) :
    ∃ rax mem head, unlinkFree m = { m with rax := rax, mem := mem, freeHead := head } := by
  unfold unlinkFree
  split
  · exact ⟨_, _, _, rfl⟩
  · exact ⟨_, _, _, rfl⟩

theorem takeFit_reply (m : Machine) :
    (takeFit m).rax = lea m.rbx 16 ∧ (takeFit m).heapEnd = m.heapEnd ∧ (takeFit m).stack = m.stack := by
  obtain ⟨rax, mem, head, unlinks⟩ := unlinkFree_leaves { m with rdi := m.r13, rsi := m.rbx }
  simp only [takeFit, unlinks]
  split
  · simp only [useWhole, returnPtr, Machine.setWord, hdrSize, and_self]
  · simp only [splitBlock, pushFree, returnPtr, Machine.setWord, hdrSize, and_self]

theorem growHeap_wraps {answer : Answer} (refused : answer.grants = false) (top : m.heapEnd = m.brk)
    (cell : m.heapEnd + 16 < 2 ^ 64) (wraps : 2 ^ 64 ≤ m.heapEnd + 16 + m.r12) (bound : m.r12 + 16 ≤ 2 ^ 64) :
    (growHeap answer m).rax = m.heapEnd + 16 ∧ (growHeap answer m).heapEnd = m.brk := by
  have sum : addq (m.heapEnd + 16) m.r12 = m.heapEnd + 16 + m.r12 - 2 ^ 64 := by
    unfold addq
    omega
  have above : ¬ m.brk < m.heapEnd + 16 + m.r12 - 2 ^ 64 := by omega
  simp only [growHeap, hdrSize, lea_eq cell, sum, sysBrk, refused, Bool.false_eq_true, if_false, ite_self, if_neg above,
    Machine.setWord, returnPtr, and_self]

theorem growHeap_stack (answer : Answer) (m : Machine) : (growHeap answer m).stack = m.stack := by
  unfold growHeap sysBrk
  dsimp only
  split_ifs <;> rfl

theorem Tracked.malloc_path (tracked : Tracked start m live blocks list) (answer : Answer) (asks : size ≠ 0)
    {need : Nat} (aligned : andMinus16 (lea size 15) = need) :
    ∃ m', (HeapCall.malloc size answer).exec m = some m' ∧
      ((∃ h ∈ list, need ≤ andMinus16 (m.mem.load 8 h) ∧ m'.rax = lea h 16 ∧ m'.heapEnd = m.brk) ∨
        ∃ m₁, m₁.r12 = need ∧ m₁.heapEnd = m.brk ∧ m₁.brk = m.brk ∧ m'.rax = (growHeap answer m₁).rax ∧
          m'.heapEnd = (growHeap answer m₁).heapEnd) := by
  have layout := tracked.layout
  obtain ⟨rcx, run⟩ := malloc_eq answer (tracked.compute { m.toRegisters with rdi := size } m.stack).toReady
  let entry : Machine := { m with
    rax := m.brk, rcx := rcx, rdi := size, r12 := size, stack := m.r13 :: m.r12 :: m.rbx :: m.stack, heapEnd := m.brk
    allocLock := 1 }
  have enters := mallocNolock_enters (m := entry) answer asks aligned
  obtain ⟨rax, rbx, r13, ⟨missed, -⟩ | ⟨front, h, back, found, rfl, large⟩⟩ :=
    findFit_spec (m := { entry with rax := need, r12 := need, r13 := 0, rbx := m.freeHead }) [] layout.chain
      layout.nodes_fit rfl layout.length_lt
  · rw [missed] at enters
    let searched : Machine := { entry with rax := rax, r12 := need, r13 := r13, rbx := rbx }
    have ran := run (growHeap answer searched) enters (growHeap_stack answer searched)
    exact ⟨_, ran, .inr ⟨searched, rfl, rfl, rfl, rfl, rfl⟩⟩
  · rw [found] at enters
    let searched : Machine := { entry with rax := rax, r12 := need, r13 := ([] ++ front).getLastD 0, rbx := h }
    obtain ⟨reply, ended, stack⟩ := takeFit_reply searched
    exact ⟨_, run (takeFit searched) enters stack, .inl ⟨h, by simp, large, reply, ended⟩⟩

theorem Tracked.room (tracked : Tracked start m live blocks list) (cell : m.brk + 16 < 2 ^ 64) (small : size < 2 ^ 64)
    (honours : ∀ answer, ∃ m', (HeapCall.malloc size answer).exec m = some m' ∧ Honours start m size m') :
    Room m.mem list m.brk size := by
  by_contra lost
  obtain ⟨asks, lost⟩ := not_or.mp lost
  have inside : ∀ answer m', (HeapCall.malloc size answer).exec m = some m' →
      m'.rax = 0 ∨ m'.rax + size ≤ m'.heapEnd := by
    intro answer m' ran
    obtain ⟨other, same, good⟩ := honours answer
    obtain rfl := Option.some.inj (ran.symm.trans same)
    have reply := good.reply
    omega
  by_cases wide : size + 15 < 2 ^ 64
  · obtain ⟨misfit, full⟩ := not_or.mp (not_and.mp lost wide)
    obtain ⟨m', ran, ⟨h, listed, large, -⟩ | ⟨m₁, need, top, brk, reply, ended⟩⟩ :=
      tracked.malloc_path ⟨false, 0⟩ asks (by rw [lea_eq wide, andMinus16_eq wide])
    · exact misfit ⟨h, listed, large⟩
    · have place := inside _ _ ran
      obtain ⟨ptr, stays⟩ := growHeap_wraps (show (Answer.mk false 0).grants = false from rfl) (top.trans brk.symm)
        (by omega) (by omega) (by omega)
      omega
  · have zero : andMinus16 (lea size 15) = 0 := by
      unfold lea
      rw [andMinus16_eq (Nat.mod_lt _ (by decide))]
      omega
    obtain ⟨m', ran, ⟨h, listed, -, reply, ended⟩ | ⟨m₁, need, top, brk, reply, ended⟩⟩ :=
      tracked.malloc_path granted asks zero
    · have place := inside _ _ ran
      have node := tracked.layout.node listed
      rw [lea_eq (by omega)] at reply
      omega
    · have place := inside _ _ ran
      rw [growHeap_granted (show granted.grants = true from rfl) (by omega)] at reply ended
      dsimp only at reply ended
      omega

theorem malloc_honours_iff {first : Machine} (fresh : Fresh start first) (used : HeapUse first m live)
    (small : size < 2 ^ 64) :
    (m.Fits size → ∀ answer, ∃ m', (HeapCall.malloc size answer).exec m = some m' ∧ Honours start m size m') ∧
      (m.brk + 16 < 2 ^ 64 →
        (∀ answer, ∃ m', (HeapCall.malloc size answer).exec m = some m' ∧ Honours start m size m') → m.Fits size) := by
  obtain ⟨blocks, list, tracked⟩ := tracks_of_use fresh used
  constructor
  · rintro ⟨other, chain, room⟩ answer
    exact tracked.honours (tracked.layout.chain.unique chain ▸ room) answer
  · intro cell honours
    exact ⟨list, tracked.layout.chain, tracked.room cell small honours⟩

theorem malloc_honours_booted : booted.Fits 100 ∧
    ∃ m', (HeapCall.malloc 100 granted).exec booted = some m' ∧ Honours 4096 booted 100 m' := by
  have fits : booted.Fits 100 := ⟨[], rfl, .inr ⟨by decide, .inr (by decide)⟩⟩
  exact ⟨fits, (malloc_honours_iff booted_fresh .start (by decide)).1 fits granted⟩

theorem malloc_short_changes : ∃ m', (HeapCall.malloc (2 ^ 64 - 1) granted).exec booted = some m' ∧
    (m'.rax, m'.heapEnd) = (4112, 4112) ∧ ¬ Honours 4096 booted (2 ^ 64 - 1) m' := by
  have ran : ((HeapCall.malloc (2 ^ 64 - 1) granted).exec booted).map (fun m' => (m'.rax, m'.heapEnd)) =
      some (4112, 4112) := by decide +kernel
  obtain ⟨m', returned, facts⟩ := Option.map_eq_some_iff.mp ran
  obtain ⟨reply, ended⟩ := Prod.mk.inj facts
  refine ⟨m', returned, facts, fun honours => ?_⟩
  have block := honours.reply
  omega

end Flinstone.Heap
