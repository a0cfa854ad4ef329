import Flinstone.Heap.Layout

/-! # What the routines do to the blocks -/

namespace Flinstone.Heap
open Flinstone.Lib List Option

variable {m : Machine} {start : Nat} {mem' : Memory} {head' : Nat} {blocks left right : List Block}
variable {free front back : List Nat} {b c : Block}

theorem lea_eq {base offset : Nat} (fits : base + offset < 2 ^ 64) : lea base offset = base + offset :=
  Nat.mod_eq_of_lt fits

variable {v w fuel size n head top need : Nat} {rest : List Nat} {answer : Answer} {mem : Memory}

theorem addq_eq (fits : v + w < 2 ^ 64) : addq v w = v + w := Nat.mod_eq_of_lt fits

theorem subq_eq (le : w ≤ v) : subq v w = v - w := if_pos le

theorem unlinkFree_eq (before : m.rdi + 8 < 2 ^ 64) (gone : m.rsi + 8 < 2 ^ 64)
    (stores : unlinked m.mem m.freeHead m.rdi m.rsi = (mem', head')) :
    unlinkFree m = { m with rax := link m.mem m.rsi, mem := mem', freeHead := head' } := by
  by_cases null : m.rdi = 0
  · simp only [unlinked, if_pos null, Prod.mk.injEq] at stores
    simp only [unlinkFree, if_pos null, Machine.word, lea_eq gone, ← stores.1, ← stores.2, link]
  · simp only [unlinked, if_neg null, Prod.mk.injEq] at stores
    simp only [unlinkFree, if_neg null, Machine.word, Machine.setWord, lea_eq before, lea_eq gone, ← stores.1,
      ← stores.2, link]

theorem findFit_spec (passed : List Nat) (chain : Segment (link m.mem) 0 m.rbx rest 0)
    (fits : ∀ h ∈ rest, h + 8 < 2 ^ 64) (before : m.r13 = passed.getLastD 0) (enough : rest.length < fuel) :
    ∃ rax rbx r13, findFit fuel m = some (false, { m with rax := rax, rbx := rbx, r13 := r13 }) ∧
        (∀ h ∈ rest, andMinus16 (m.mem.load 8 h) < m.r12) ∨
      ∃ front h back,
        findFit fuel m = some (true, { m with rax := rax, rbx := h, r13 := (passed ++ front).getLastD 0 }) ∧
        rest = front ++ h :: back ∧ m.r12 ≤ andMinus16 (m.mem.load 8 h) := by
  induction rest generalizing m passed fuel with
  | nil =>
    obtain ⟨fuel, rfl⟩ := Nat.exists_eq_succ_of_ne_zero (ne_of_gt enough)
    have null : m.rbx = 0 := chain
    exact ⟨m.rax, m.rbx, m.r13, .inl ⟨by rw [findFit, if_pos null], nofun⟩⟩
  | cons h rest ih =>
    obtain ⟨fuel, rfl⟩ := Nat.exists_eq_succ_of_ne_zero (ne_of_gt (Nat.zero_lt_of_lt enough))
    obtain ⟨rfl, nonnull, chain⟩ := chain
    obtain ⟨here, later⟩ := forall_mem_cons.mp fits
    by_cases small : andMinus16 (m.mem.load 8 m.rbx) < m.r12
    · let next : Machine := { m with rax := andMinus16 (m.mem.load 8 m.rbx), r13 := m.rbx, rbx := link m.mem m.rbx }
      have step : findFit (fuel + 1) m = findFit fuel next := by
        simp only [findFit, if_neg nonnull, Machine.word, if_pos small, lea_eq here, next, link]
      obtain ⟨rax, rbx, r13, result⟩ :=
        ih (m := next) (passed ++ [m.rbx]) chain later (by simp [next]) (by simpa using enough)
      rw [step]
      refine ⟨rax, rbx, r13, result.imp (And.imp_right fun others => forall_mem_cons.mpr ⟨small, others⟩) ?_⟩
      rintro ⟨front, h, back, found, rfl, large⟩
      exact ⟨m.rbx :: front, h, back, by simpa using found, rfl, large⟩
    · refine ⟨andMinus16 (m.mem.load 8 m.rbx), m.rbx, m.r13, .inr ⟨[], m.rbx, rest, ?_, rfl, not_lt.mp small⟩⟩
      simp only [findFit, if_neg nonnull, Machine.word, if_neg small, append_nil, before]

theorem takeFit_whole (inner : m.r13 + 8 < 2 ^ 64) (cell : m.rbx + 16 < 2 ^ 64)
    (stores : unlinked m.mem m.freeHead m.r13 m.rbx = (mem', head'))
    (header : andMinus16 (mem'.load 8 m.rbx) = size) (enough : m.r12 ≤ size)
    (small : size - m.r12 < 32) :
    takeFit m = { m with
      rax := m.rbx + 16, rdi := m.r13, rsi := m.rbx, mem := mem'.store 8 m.rbx size, freeHead := head' } := by
  have unlinks := unlinkFree_eq (m := { m with rdi := m.r13, rsi := m.rbx }) inner (by dsimp only; omega) stores
  have less : size - m.r12 < 16 + 16 := small
  simp only [takeFit, unlinks, Machine.word, header, subq_eq enough, if_pos less, useWhole, Machine.setWord,
    returnPtr, hdrSize, lea_eq cell]

theorem splitBlock_eq (header : 16 ≤ m.rax) (node : m.rbx + 16 + m.r12 + 8 < 2 ^ 64) : splitBlock m = { m with
      rax := m.rbx + 16, rcx := m.rax - 16 ||| 1, rdx := m.rbx + 16 + m.r12, rdi := m.rbx + 16 + m.r12
      mem := ((m.mem.store 8 (m.rbx + 16 + m.r12) (m.rax - 16 ||| 1)).store 8 (m.rbx + 16 + m.r12 + 8) m.freeHead).store
        8 m.rbx m.r12
      freeHead := m.rbx + 16 + m.r12 } := by
  have cell : m.rbx + 16 < 2 ^ 64 := by omega
  have place : m.rbx + 16 + m.r12 < 2 ^ 64 := by omega
  simp only [splitBlock, Machine.setWord, returnPtr, hdrSize, flagFree, lea_eq cell, addq_eq place,
    subq_eq header, pushFree, lea_eq node]

theorem takeFit_split (inner : m.r13 + 8 < 2 ^ 64) (stores : unlinked m.mem m.freeHead m.r13 m.rbx = (mem', head'))
    (header : andMinus16 (mem'.load 8 m.rbx) = size) (enough : m.r12 ≤ size) (large : 32 ≤ size - m.r12)
    (fits : m.rbx + 16 + size < 2 ^ 64) :
    takeFit m = splitBlock { m with
      rax := size - m.r12, rdi := m.r13, rsi := m.rbx, mem := mem', freeHead := head' } := by
  have unlinks := unlinkFree_eq (m := { m with rdi := m.r13, rsi := m.rbx }) inner (by dsimp only; omega) stores
  have more : ¬ size - m.r12 < 16 + 16 := not_lt.mpr large
  simp only [takeFit, unlinks, Machine.word, header, subq_eq enough, hdrSize, if_neg more]

theorem growHeap_granted (granted : answer.grants = true) (fits : m.heapEnd + 16 + m.r12 < 2 ^ 64) :
    growHeap answer m = { m with
      rax := m.heapEnd + 16, rbx := m.heapEnd, rcx := answer.rcx, rdi := m.heapEnd + 16 + m.r12
      mem := m.mem.store 8 m.heapEnd m.r12, heapEnd := m.heapEnd + 16 + m.r12, brk := m.heapEnd + 16 + m.r12 } := by
  have cell : m.heapEnd + 16 < 2 ^ 64 := by omega
  have asks : ¬ m.heapEnd + 16 + m.r12 = 0 := by omega
  simp only [growHeap, hdrSize, lea_eq cell, addq_eq fits, sysBrk, if_neg asks, granted, if_true, lt_irrefl, if_false,
    Machine.setWord, returnPtr]

theorem growHeap_refused (refused : answer.grants = false) (top : m.heapEnd = m.brk)
    (fits : m.heapEnd + 16 + m.r12 < 2 ^ 64) :
    growHeap answer m = { m with rax := 0, rbx := m.heapEnd, rcx := answer.rcx, rdi := m.heapEnd + 16 + m.r12 } := by
  have cell : m.heapEnd + 16 < 2 ^ 64 := by omega
  have asks : ¬ m.heapEnd + 16 + m.r12 = 0 := by omega
  have less : m.brk < m.heapEnd + 16 + m.r12 := by omega
  simp only [growHeap, hdrSize, lea_eq cell, addq_eq fits, sysBrk, if_neg asks, refused, Bool.false_eq_true, if_false,
    if_pos less]

theorem search_spec (passed : List Nat) (chain : Segment (link m.mem) 0 m.r9 rest 0)
    (fits : ∀ h ∈ rest, h + 8 < 2 ^ 64) (before : m.r8 = passed.getLastD 0) (enough : rest.length < fuel)
    (member : m.r12 ∈ rest) :
    ∃ front back r9, search fuel m = some (true, { m with r8 := (passed ++ front).getLastD 0, r9 := r9 }) ∧
      rest = front ++ m.r12 :: back := by
  induction rest generalizing m passed fuel with
  | nil => cases member
  | cons h rest ih =>
    obtain ⟨fuel, rfl⟩ := Nat.exists_eq_succ_of_ne_zero (ne_of_gt (Nat.zero_lt_of_lt enough))
    obtain ⟨rfl, nonnull, chain⟩ := chain
    obtain ⟨here, later⟩ := forall_mem_cons.mp fits
    by_cases same : m.r9 = m.r12
    · refine ⟨[], rest, m.r9, ?_, by rw [same]; rfl⟩
      simp only [search, if_neg nonnull, if_pos same, append_nil, ← before]
    · let next : Machine := { m with r8 := m.r9, r9 := link m.mem m.r9 }
      have step : search (fuel + 1) m = search fuel next := by
        simp only [search, if_neg nonnull, if_neg same, Machine.word, lea_eq here, next, link]
      have among : m.r12 ∈ rest := (mem_cons.mp member).resolve_left (Ne.symm same)
      obtain ⟨front, back, r9, found, split⟩ :=
        ih (m := next) (passed ++ [m.r9]) chain later (by simp [next]) (by simpa using enough) among
      rw [step]
      exact ⟨m.r9 :: front, back, r9, by simpa using found, congrArg (m.r9 :: ·) split⟩

theorem markFree_eq (fits : m.rbx + 8 < 2 ^ 64) (header : andMinus16 (m.mem.load 8 m.rbx) = size) :
    markFree m = { m with
      rax := m.freeHead, rdi := m.rbx
      mem := (m.mem.store 8 m.rbx (size ||| flagFree)).store 8 (m.rbx + 8) m.freeHead, freeHead := m.rbx } := by
  simp only [markFree, Machine.word, header, Machine.setWord, pushFree, lea_eq fits]

theorem absorb_eq {other : Nat} (inner : m.r8 + 8 < 2 ^ 64) (cell : m.r12 + 8 < 2 ^ 64)
    (stores : unlinked m.mem m.freeHead m.r8 m.r12 = (mem', head')) (first : andMinus16 (mem'.load 8 m.rbx) = size)
    (second : andMinus16 (mem'.load 8 m.r12) = other) (fits : size + 16 + other < 2 ^ 64) :
    absorb m = { m with
      rax := size + 16 + other ||| flagFree, rdx := other, rdi := m.r8, rsi := m.r12
      mem := mem'.store 8 m.rbx (size + 16 + other ||| flagFree), freeHead := head' } := by
  have unlinks := unlinkFree_eq (m := { m with rdi := m.r8, rsi := m.r12 }) inner cell stores
  have header : size + 16 < 2 ^ 64 := by omega
  simp only [absorb, unlinks, Machine.word, first, second, hdrSize, addq_eq header, addq_eq fits, Machine.setWord]

def Becomes (start : Nat) (mem : Memory) (blocks : List Block) (mem' : Memory) (head' top' : Nat)
    (stays : Block → Prop) : Prop :=
  ∃ blocks' free', Layout start mem' head' top' blocks' free' ∧ Complete blocks' free' ∧
    (∀ c, c.held ≠ none → (c ∈ blocks' ↔ stays c)) ∧ ∀ c ∈ blocks, c.held ≠ none → stays c → c.Keeps mem mem'

section
variable {mem mem₁ : Memory} {head head₁ top : Nat} {n : Nat}

theorem Complete.insert {new : List Block} (complete : Complete (left ++ right) free)
    (listed : ∀ c ∈ new, c.held = none → c.hdr ∈ free) : Complete (left ++ (new ++ right)) free := by
  intro c member unheld
  rcases mem_middle.mp member with member | member
  · exact listed c member unheld
  · exact complete c member unheld

theorem Layout.hands {new : List Block} {given : Block} {top' : Nat}
    (layout : Layout start mem' head' top' (left ++ (new ++ right)) free)
    (complete : Complete (left ++ (new ++ right)) free) (only : ∀ c, c.held ≠ none → (c ∈ new ↔ c = given))
    (unheld : b.held = none) (keeps : ∀ c ∈ left ++ b :: right, c.held ≠ none → c.Keeps mem mem') :
    Becomes start mem (left ++ b :: right) mem' head' top' fun c => c = given ∨ c ∈ left ++ b :: right := by
  refine ⟨_, _, layout, complete, fun c live => ?_, fun c member live _ => keeps c member live⟩
  have other : c ≠ b := fun same => live (same ▸ unheld)
  simp only [mem_middle, only c live, mem_middle_cons, other, false_or]

theorem mem_others (live : c.held ≠ none) (unheld : b.held = none) (member : c ∈ left ++ b :: right) :
    c ∈ left ++ right :=
  (mem_middle_cons.mp member).resolve_left fun same => live (same ▸ unheld)

theorem Layout.takes (layout : Layout start mem head top (left ++ b :: right) (front ++ b.hdr :: back))
    (complete : Complete (left ++ b :: right) (front ++ b.hdr :: back)) (unheld : b.held = none)
    (stores : unlinked mem head (front.getLastD 0) b.hdr = (mem₁, head₁)) (enough : n ≤ b.size) :
    Becomes start mem (left ++ b :: right) (mem₁.store 8 b.hdr b.size) head₁ top fun c =>
      c = ⟨b.hdr, b.size, some n⟩ ∨ c ∈ left ++ b :: right := by
  obtain ⟨layout₁, -, kept⟩ := layout.unlink stores
  obtain ⟨layout', keeps⟩ := layout₁.relabel (some n) layout.unlisted (by rintro _ ⟨⟩; exact enough) rfl
  have whole : Layout start _ head₁ top (left ++ ([⟨b.hdr, b.size, some n⟩] ++ right)) (front ++ back) := layout'
  refine whole.hands ((layout.complete_others complete).insert (by simp)) (by simp) unheld fun c member live => ?_
  exact (kept c member live).trans (keeps c (mem_others live unheld member))

theorem Layout.splits {need rest d v : Nat}
    (layout : Layout start mem head top (left ++ b :: right) (front ++ b.hdr :: back))
    (complete : Complete (left ++ b :: right) (front ++ b.hdr :: back)) (unheld : b.held = none)
    (stores : unlinked mem head (front.getLastD 0) b.hdr = (mem₁, head₁)) (parts : b.size = need + (16 + rest))
    (enough : n ≤ need) (rounded : need % 16 = 0) (payload : 16 ≤ need) (remainder : 16 ≤ rest)
    (behind : d = b.hdr + (16 + need)) (header : v = rest + 1) :
    Becomes start mem (left ++ b :: right) (((mem₁.store 8 d v).store 8 (d + 8) head₁).store 8 b.hdr need) d top
      fun c => c = ⟨b.hdr, need, some n⟩ ∨ c ∈ left ++ b :: right := by
  obtain ⟨layout₁, -, kept⟩ := layout.unlink stores
  obtain ⟨layout', keeps⟩ := layout₁.split layout.unlisted parts enough rounded payload remainder behind
  rw [← header, Memory.store_comm (by omega)] at layout' keeps
  have cut : Layout start _ d top (left ++ ([⟨b.hdr, need, some n⟩, ⟨d, rest, none⟩] ++ right))
      (d :: (front ++ back)) := layout'
  have others : Complete (left ++ right) (d :: (front ++ back)) := fun c member free =>
    mem_cons_of_mem d (layout.complete_others complete c member free)
  refine cut.hands (others.insert (by simp)) (fun c live => ?_) unheld fun c member live => ?_
  · have other : c ≠ ⟨d, rest, none⟩ := fun same => live (same ▸ rfl)
    simp [other]
  · exact (kept c member live).trans (keeps c (mem_others live unheld member) live)

theorem Layout.nodes_fit (layout : Layout start mem head top blocks free) : ∀ h ∈ free, h + 8 < 2 ^ 64 := by
  intro h member
  have node := layout.node member
  have fits := layout.fits
  omega

theorem Layout.last_fits (layout : Layout start mem head top blocks (front ++ back)) :
    front.getLastD 0 + 8 < 2 ^ 64 := by
  rcases eq_nil_or_concat' front with rfl | ⟨front, h, rfl⟩
  · decide
  · have node := layout.node (show h ∈ front ++ [h] ++ back by simp)
    have fits := layout.fits
    rw [getLastD_concat]
    omega

end

theorem takeFit_spec (layout : Layout start m.mem m.freeHead m.heapEnd blocks (front ++ m.rbx :: back))
    (complete : Complete blocks (front ++ m.rbx :: back)) (before : m.r13 = front.getLastD 0)
    (large : m.r12 ≤ andMinus16 (m.mem.load 8 m.rbx)) (rounded : m.r12 % 16 = 0) (payload : 16 ≤ m.r12)
    (enough : n ≤ m.r12) :
    ∃ regs mem' head' b, takeFit m = { m with toRegisters := regs, mem := mem', freeHead := head' } ∧
      b.held = some n ∧ regs.rax = b.hdr + 16 ∧ (∀ c ∈ blocks, c.held ≠ none → c.hdr ≠ b.hdr) ∧
      Becomes start m.mem blocks mem' head' m.heapEnd fun c => c = b ∨ c ∈ blocks := by
  obtain ⟨b, placed, unheld, here⟩ := layout.known m.rbx (by simp)
  have fresh : ∀ c ∈ blocks, c.held ≠ none → c.hdr ≠ b.hdr := by
    intro c member live
    have apart := layout.apart_live member placed live unheld
    unfold Block.Apart Lib.Apart Block.extent hdrSize at apart
    omega
  obtain ⟨left, right, rfl⟩ := append_of_mem placed
  obtain ⟨⟨mem₁, head₁⟩, stores⟩ : ∃ stored, unlinked m.mem m.freeHead m.r13 m.rbx = stored := ⟨_, rfl⟩
  have fits := layout.fits
  have within := layout.tiles.within placed
  have sound := layout.sound b placed
  have whole := sound.rounded
  unfold Block.extent hdrSize at within
  have inner : m.r13 + 8 < 2 ^ 64 := before ▸ layout.last_fits
  rw [← here] at layout complete
  have stores' : unlinked m.mem m.freeHead (front.getLastD 0) b.hdr = (mem₁, head₁) := by rw [here, ← before, stores]
  have size : andMinus16 (mem₁.load 8 m.rbx) = b.size := by
    rw [← here, (layout.unlink stores').2.1 b.hdr sound.aligned, layout.size_header placed]
  have fit : m.r12 ≤ b.size := by rwa [← here, layout.size_header placed] at large
  by_cases small : b.size - m.r12 < 32
  · have becomes := layout.takes complete unheld stores' (enough.trans fit)
    rw [takeFit_whole inner (by omega) stores size fit small]
    exact ⟨_, _, _, ⟨b.hdr, b.size, some n⟩, rfl, rfl, here ▸ rfl, fresh, here ▸ becomes⟩
  · have flagged : b.size - m.r12 - 16 ||| 1 = b.size - m.r12 - 16 + 1 := or_flagFree (by omega)
    have parts : b.size = m.r12 + (16 + (b.size - m.r12 - 16)) := by omega
    have becomes := layout.splits complete unheld stores' parts enough rounded payload (by omega)
      (d := m.rbx + 16 + m.r12) (by omega) flagged
    rw [takeFit_split inner stores size fit (by omega) (by omega),
      splitBlock_eq (by dsimp only; omega) (by dsimp only; omega)]
    exact ⟨_, _, _, ⟨b.hdr, m.r12, some n⟩, rfl, rfl, here ▸ rfl, fresh, here ▸ becomes⟩

theorem Layout.unchanged (layout : Layout start mem head top blocks free)
    (complete : Complete blocks free) : Becomes start mem blocks mem head top (· ∈ blocks) :=
  ⟨blocks, free, layout, complete, fun _ _ => .rfl, fun _ _ _ _ _ _ _ => rfl⟩

theorem Layout.grows (layout : Layout start mem head top blocks free)
    (complete : Complete blocks free) (fits : top + (16 + need) < 2 ^ 64) (rounded : need % 16 = 0)
    (payload : 16 ≤ need) (enough : n ≤ need) :
    Becomes start mem blocks (mem.store 8 top need) head (top + (16 + need)) fun c =>
      c = ⟨top, need, some n⟩ ∨ c ∈ blocks := by
  obtain ⟨layout', keeps⟩ := layout.grow fits rounded payload enough
  refine ⟨_, _, layout', ?_, fun c _ => ?_, fun c member _ _ => keeps c member⟩
  · exact forall_mem_append.mpr ⟨complete, forall_mem_singleton.mpr nofun⟩
  · rw [mem_append, mem_singleton, or_comm]

def Served (start : Nat) (mem : Memory) (blocks : List Block) (m' : Machine) (n : Nat) : Prop :=
  (m'.rax = 0 ∧ Becomes start mem blocks m'.mem m'.freeHead m'.brk (· ∈ blocks)) ∨
    ∃ b, b.held = some n ∧ m'.rax = b.hdr + 16 ∧ (∀ c ∈ blocks, c.held ≠ none → c.hdr ≠ b.hdr) ∧
      Becomes start mem blocks m'.mem m'.freeHead m'.brk fun c => c = b ∨ c ∈ blocks

theorem mallocNolock_enters (answer : Answer) (asks : m.rdi ≠ 0) (aligned : andMinus16 (lea m.rdi 15) = need) :
    mallocNolock answer m =
      (findFit addresses { m with rax := need, r12 := need, r13 := 0, rbx := m.freeHead }).bind fun r =>
        some (if r.1 then takeFit r.2 else growHeap answer r.2) := by
  simp only [mallocNolock, if_neg asks, align16, aligned]
  rfl

/-- No sum wraps: the size can be rounded, and a free block is large enough or the new break is an address. -/
def Room (mem : Memory) (free : List Nat) (brk size : Nat) : Prop :=
  size = 0 ∨ size + 15 < 2 ^ 64 ∧ ((∃ h ∈ free, (size + 15) / 16 * 16 ≤ andMinus16 (mem.load 8 h)) ∨
    brk + 16 + (size + 15) / 16 * 16 < 2 ^ 64)

theorem mallocNolock_spec (answer : Answer) (layout : Layout start m.mem m.freeHead m.brk blocks free)
    (complete : Complete blocks free) (ended : m.heapEnd = m.brk) (room : Room m.mem free m.brk m.rdi) :
    ∃ m', mallocNolock answer m = some m' ∧ m'.stack = m.stack ∧ m'.allocLock = m.allocLock ∧ m'.heapEnd = m'.brk ∧
      m.brk ≤ m'.brk ∧ Served start m.mem blocks m' m.rdi := by
  by_cases nothing : m.rdi = 0
  · have none : mallocNolock answer m = some { m with rax := 0 } := if_pos nothing
    exact ⟨_, none, rfl, rfl, ended, le_rfl, .inl ⟨rfl, layout.unchanged complete⟩⟩
  obtain ⟨size, room⟩ := room.resolve_left nothing
  have enters := mallocNolock_enters answer nothing (by rw [lea_eq size, andMinus16_eq size])
  have payload : 16 ≤ (m.rdi + 15) / 16 * 16 := by omega
  have enough : m.rdi ≤ (m.rdi + 15) / 16 * 16 := by omega
  generalize (m.rdi + 15) / 16 * 16 = need, Nat.mul_mod_left ((m.rdi + 15) / 16) 16 = rounded at *
  let entry : Machine := { m with rax := need, r12 := need, r13 := 0, rbx := m.freeHead }
  obtain ⟨rax, rbx, r13, ⟨missed, small⟩ | ⟨front, h, back, found, rfl, large⟩⟩ :=
    findFit_spec (m := entry) [] layout.chain layout.nodes_fit rfl layout.length_lt
  · rw [enters, missed]
    let searched : Machine := { entry with rax := rax, rbx := rbx, r13 := r13 }
    have fits : m.brk + 16 + need < 2 ^ 64 :=
      room.resolve_left fun ⟨h, listed, large⟩ => absurd large (not_le.mpr (small h listed))
    have room : searched.heapEnd + 16 + searched.r12 < 2 ^ 64 := ended ▸ fits
    cases granted : answer.grants with
    | false =>
      have refused := growHeap_refused (m := searched) granted ended room
      exact ⟨_, congrArg some refused, rfl, rfl, ended, le_rfl, .inl ⟨rfl, layout.unchanged complete⟩⟩
    | true =>
      have grown := growHeap_granted (m := searched) granted room
      have becomes := layout.grows complete (by omega) rounded payload enough
      have fresh : ∀ c ∈ blocks, c.held ≠ none → c.hdr ≠ m.brk := by
        intro c member _
        have within := layout.tiles.within member
        unfold Block.extent hdrSize at within
        omega
      have above : m.brk ≤ m.heapEnd + 16 + need := by omega
      rw [← add_assoc] at becomes
      rw [← ended] at becomes fresh
      exact ⟨_, congrArg some grown, rfl, rfl, rfl, above, .inr ⟨_, rfl, rfl, fresh, becomes⟩⟩
  · rw [enters, found]
    let searched : Machine := { entry with rax := rax, rbx := h, r13 := ([] ++ front).getLastD 0 }
    obtain ⟨regs, mem', head', b, taken, held, reply, fresh, becomes⟩ :=
      takeFit_spec (m := searched) (ended ▸ layout) complete rfl large rounded payload enough
    exact ⟨_, congrArg some taken, rfl, rfl, ended, le_rfl, .inr ⟨b, held, reply, fresh, ended ▸ becomes⟩⟩

theorem Layout.absorbs {mem₁ : Memory} {head₁ : Nat}
    (layout : Layout start mem head top (left ++ b :: c :: right) (front ++ c.hdr :: back))
    (complete : Complete (left ++ b :: c :: right) (front ++ c.hdr :: back)) (unheld : b.held = none)
    (other : c.held = none) (stores : unlinked mem head (front.getLastD 0) c.hdr = (mem₁, head₁))
    (header : v = b.size + (16 + c.size) + 1) :
    Becomes start mem (left ++ b :: c :: right) (mem₁.store 8 b.hdr v) head₁ top (· ∈ left ++ b :: c :: right) := by
  have regroup : left ++ b :: c :: right = (left ++ [b]) ++ c :: right := by simp
  obtain ⟨layout₁, -, kept⟩ := layout.unlink stores
  obtain ⟨layout', keeps⟩ := layout₁.absorb layout.unlisted header
  have others : Complete (left ++ b :: right) (front ++ back) := by
    rw [regroup] at layout complete
    simpa using layout.complete_others complete
  refine ⟨_, _, layout', ?_, fun e live => ?_, fun e member live _ => (kept e member live).trans (keeps e ?_)⟩
  · intro e member free
    rcases mem_middle_cons.mp member with rfl | member
    · exact others b (by simp) unheld
    · exact others e (mem_middle_cons.mpr (.inr member)) free
  · have first : e ≠ b := fun same => live (same ▸ unheld)
    have second : e ≠ c := fun same => live (same ▸ other)
    have merged : e ≠ ⟨b.hdr, b.size + (16 + c.size), none⟩ := fun same => live (same ▸ rfl)
    simp only [mem_middle_cons, first, second, merged, false_or]
  · exact mem_others live other (mem_others live unheld member)

theorem absorb_spec
    (layout : Layout start m.mem m.freeHead m.heapEnd (left ++ b :: c :: right) (front ++ c.hdr :: back))
    (complete : Complete (left ++ b :: c :: right) (front ++ c.hdr :: back)) (unheld : b.held = none)
    (other : c.held = none) (here : m.rbx = b.hdr) (next : m.r12 = c.hdr) (before : m.r8 = front.getLastD 0) :
    ∃ regs mem' head', absorb m = { m with toRegisters := regs, mem := mem', freeHead := head' } ∧ regs.r13 = m.r13 ∧
      Becomes start m.mem (left ++ b :: c :: right) mem' head' m.heapEnd (· ∈ left ++ b :: c :: right) := by
  obtain ⟨⟨mem₁, head₁⟩, stores⟩ : ∃ stored, unlinked m.mem m.freeHead (front.getLastD 0) c.hdr = stored := ⟨_, rfl⟩
  have headers := (layout.unlink stores).2.1
  have sound := layout.sound b (by simp)
  have after := layout.sound c (by simp)
  have first : andMinus16 (mem₁.load 8 m.rbx) = b.size := by
    rw [here, headers b.hdr sound.aligned, layout.size_header (by simp)]
  have second : andMinus16 (mem₁.load 8 m.r12) = c.size := by
    rw [next, headers c.hdr after.aligned, layout.size_header (by simp)]
  obtain ⟨i, -, place, behind, -⟩ := tiles_append.mp layout.tiles
  have within := layout.tiles.within (show c ∈ left ++ b :: c :: right by simp)
  have fits := layout.fits
  unfold Block.extent hdrSize at behind within
  have absorbed := absorb_eq (before ▸ layout.last_fits) (by omega) (before ▸ next ▸ stores) first second (by omega)
  have header : b.size + 16 + c.size ||| flagFree = b.size + (16 + c.size) + 1 := by
    have one := sound.rounded
    have two := after.rounded
    rw [or_flagFree (by omega), add_assoc b.size]
  exact ⟨_, _, _, absorbed, rfl, here ▸ layout.absorbs complete unheld other stores header⟩

theorem coalesce_spec (layout : Layout start m.mem m.freeHead m.heapEnd (left ++ b :: right) free)
    (complete : Complete (left ++ b :: right) free) (unheld : b.held = none) (here : m.rbx = b.hdr) :
    ∃ regs mem' head', coalesce m = some { m with toRegisters := regs, mem := mem', freeHead := head' } ∧
      regs.r13 = m.r13 ∧ Becomes start m.mem (left ++ b :: right) mem' head' m.heapEnd (· ∈ left ++ b :: right) := by
  have placed : b ∈ left ++ b :: right := by simp
  have within := layout.tiles.within placed
  have fits := layout.fits
  unfold Block.extent hdrSize at within
  have size : andMinus16 (m.mem.load 8 m.rbx) = b.size := here ▸ layout.size_header placed
  have cell : m.rbx + 16 < 2 ^ 64 := by omega
  have behind : m.rbx + 16 + b.size < 2 ^ 64 := by omega
  by_cases last : m.heapEnd ≤ m.rbx + 16 + b.size
  · have stops : coalesce m = some { m with
        rax := b.size, rcx := m.heapEnd, r12 := m.rbx + 16 + b.size } := by
      simp only [coalesce, Machine.word, size, hdrSize, lea_eq cell, addq_eq behind, if_pos last]
    exact ⟨_, _, _, stops, rfl, layout.unchanged complete⟩
  obtain ⟨c, right, rfl, next⟩ := layout.tiles.next (show b.hdr + (16 + b.size) < m.heapEnd by omega)
  have next : m.rbx + 16 + b.size = c.hdr := by
    rw [next, here, add_assoc]
    rfl
  rw [next] at last
  have odd : m.mem.load 8 c.hdr &&& flagFree = c.flag := layout.flag_header (by simp)
  let probed : Machine := { m with rax := b.size, rcx := m.heapEnd, r12 := c.hdr, rdx := m.mem.load 8 c.hdr }
  by_cases used : c.held = none
  · -- the next block is free, so it is on the list
    have flagged : ¬ c.flag = 0 := by rw [Block.flag, if_pos used]; decide
    have searches : coalesce m = (search addresses { probed with r8 := 0, r9 := m.freeHead }).bind fun r =>
        some (if r.1 then absorb r.2 else r.2) := by
      simp only [coalesce, Machine.word, size, hdrSize, lea_eq cell, addq_eq behind, next, if_neg last, odd,
        if_neg flagged, probed]
      rfl
    obtain ⟨front, back, r9, found, rfl⟩ := search_spec (m := { probed with r8 := 0, r9 := m.freeHead }) []
      layout.chain layout.nodes_fit rfl layout.length_lt (complete c (by simp) used)
    let ready : Machine := { probed with r8 := ([] ++ front).getLastD 0, r9 := r9 }
    obtain ⟨regs, mem', head', absorbed, saved, becomes⟩ :=
      absorb_spec (m := ready) layout complete unheld used here rfl rfl
    rw [searches, found]
    exact ⟨regs, mem', head', congrArg some absorbed, saved, becomes⟩
  · have unflagged : c.flag = 0 := if_neg used
    have stops : coalesce m = some probed := by
      simp only [coalesce, Machine.word, size, hdrSize, lea_eq cell, addq_eq behind, next, if_neg last, odd,
        if_pos unflagged, probed]
    exact ⟨_, _, _, stops, rfl, layout.unchanged complete⟩

/-- Between two calls. Before the first `malloc` the break is not known yet. -/
structure Ready (start : Nat) (m : Machine) (blocks : List Block) (free : List Nat) : Prop where
  unlocked : m.allocLock = 0
  layout : Layout start m.mem m.freeHead m.brk blocks free
  complete : Complete blocks free
  ended : m.heapEnd = m.brk ∨ m.heapEnd = 0 ∧ blocks = []

structure Saved (m m' : Machine) : Prop where
  stack : m'.stack = m.stack
  rbx : m'.rbx = m.rbx
  r12 : m'.r12 = m.r12
  r13 : m'.r13 = m.r13

theorem Ready.brk_ne_zero (ready : Ready start m blocks free) : m.brk ≠ 0 := by
  have first := ready.layout.tiles.le
  have nonnull := ready.layout.nonnull
  omega

theorem initHeapOnceNolock_eq (ready : Ready start m blocks free) (m₁ : Machine) (answer : Answer)
    (same : m₁.heapEnd = m.heapEnd) (brk : m₁.brk = m.brk) :
    ∃ rdi rcx, initHeapOnceNolock answer m₁ = { m₁ with rax := m.brk, rdi := rdi, rcx := rcx, heapEnd := m.brk } ∧
      (m.heapEnd ≠ 0 → rdi = m₁.rdi) := by
  rcases ready.ended with known | ⟨unknown, -⟩
  · have set : ¬ m₁.heapEnd = 0 := by
      rw [same, known]
      exact ready.brk_ne_zero
    refine ⟨m₁.rdi, m₁.rcx, ?_, fun _ => rfl⟩
    simp only [initHeapOnceNolock, if_neg set, ← known, ← same]
  · have unset : m₁.heapEnd = 0 := same.trans unknown
    refine ⟨0, answer.rcx, ?_, fun set => absurd unknown set⟩
    simp only [initHeapOnceNolock, if_pos unset, sysBrk, if_true, brk]

theorem malloc_eq (answer : Answer) (ready : Ready start m blocks free) : ∃ rcx, ∀ m', mallocNolock answer { m with
        rax := m.brk, rcx := rcx, r12 := m.rdi, stack := m.r13 :: m.r12 :: m.rbx :: m.stack, heapEnd := m.brk
        allocLock := 1 } = some m' → m'.stack = m.r13 :: m.r12 :: m.rbx :: m.stack →
      malloc answer m = some { m' with
        rbx := m.rbx, r12 := m.r12, r13 := m.r13, stack := m.stack, allocLock := 0 } := by
  let locked : Machine := { m with stack := m.r13 :: m.r12 :: m.rbx :: m.stack, r12 := m.rdi, rax := 0, allocLock := 1 }
  obtain ⟨rdi, rcx, init, -⟩ := initHeapOnceNolock_eq ready locked answer rfl rfl
  refine ⟨rcx, fun m' served stack => ?_⟩
  simp only [locked] at init
  simp only [malloc, Machine.pushq, lockAcquire, ready.unlocked, if_true, bind_eq_bind, bind_some, init,
    served, lockRelease, Machine.top, Machine.dropTop, stack, headD_cons, tail_cons]
  rfl

theorem malloc_spec (answer : Answer) (ready : Ready start m blocks free) (room : Room m.mem free m.brk m.rdi) :
    ∃ m', malloc answer m = some m' ∧ m'.allocLock = 0 ∧ m'.heapEnd = m'.brk ∧ m.brk ≤ m'.brk ∧ Saved m m' ∧
      Served start m.mem blocks m' m.rdi := by
  obtain ⟨rcx, run⟩ := malloc_eq answer ready
  let entry : Machine := { m with
    rax := m.brk, rcx := rcx, r12 := m.rdi, stack := m.r13 :: m.r12 :: m.rbx :: m.stack, heapEnd := m.brk
    allocLock := 1 }
  obtain ⟨m', served, stack, -, ended, above, result⟩ :=
    mallocNolock_spec (m := entry) answer ready.layout ready.complete rfl room
  exact ⟨_, run m' served stack, rfl, ended, above, ⟨rfl, rfl, rfl, rfl⟩, result⟩

theorem Becomes.after {mem' mem'' : Memory} {blocks' : List Block} {stays : Block → Prop}
    (becomes : Becomes start mem' blocks' mem'' head top (· ∈ blocks'))
    (same : ∀ c, c.held ≠ none → (c ∈ blocks' ↔ stays c))
    (keeps : ∀ c ∈ blocks, c.held ≠ none → stays c → c.Keeps mem mem') :
    Becomes start mem blocks mem'' head top stays := by
  obtain ⟨blocks'', free'', layout, complete, live, kept⟩ := becomes
  refine ⟨blocks'', free'', layout, complete, fun c held => (live c held).trans (same c held), ?_⟩
  intro c member held stays
  have still := (same c held).mpr stays
  exact (keeps c member held stays).trans (kept c still held still)

theorem free_spec (answer : Answer) (ready : Ready start m blocks free) (placed : b ∈ blocks) (live : b.held ≠ none)
    (ptr : m.rdi = b.hdr + 16) :
    ∃ m', Heap.free answer m = some m' ∧ m'.allocLock = 0 ∧ m'.heapEnd = m'.brk ∧ Saved m m' ∧
      Becomes start m.mem blocks m'.mem m'.freeHead m'.brk fun c => c ∈ blocks ∧ c ≠ b := by
  have ended : m.heapEnd = m.brk := ready.ended.resolve_right fun unset => by
    rw [unset.2] at placed
    cases placed
  have layout := ready.layout
  have sound := layout.sound b placed
  have within := layout.tiles.within placed
  have fits := layout.fits
  unfold Block.extent hdrSize at within
  let locked : Machine := { m with stack := m.r12 :: m.rbx :: m.stack, rax := 0, allocLock := 1 }
  obtain ⟨rdi, rcx, init, kept⟩ := initHeapOnceNolock_eq ready locked answer rfl rfl
  obtain rfl := kept (ended ▸ ready.brk_ne_zero)
  let entry : Machine := { locked with rax := m.brk, rcx := rcx, heapEnd := m.brk, rbx := b.hdr }
  have marks := markFree_eq (m := entry) (show b.hdr + 8 < 2 ^ 64 by omega) (layout.size_header placed)
  rw [or_flagFree sound.rounded] at marks
  obtain ⟨left, right, rfl⟩ := append_of_mem placed
  obtain ⟨released, keeps⟩ := layout.release live
  have complete : Complete (left ++ ⟨b.hdr, b.size, none⟩ :: right) (b.hdr :: free) := by
    intro c member unheld
    rcases mem_middle_cons.mp member with rfl | member
    · exact mem_cons_self
    · exact mem_cons_of_mem _ (ready.complete c (mem_middle_cons.mpr (.inr member)) unheld)
  let marked : Machine := { entry with
    rax := m.freeHead, rdi := b.hdr, mem := (m.mem.store 8 b.hdr (b.size + 1)).store 8 (b.hdr + 8) m.freeHead
    freeHead := b.hdr }
  obtain ⟨regs, mem', head', joins, r13, becomes⟩ := coalesce_spec (m := marked) released complete rfl rfl
  have run : Heap.free answer m = some { m with
      toRegisters := { regs with rbx := m.rbx, r12 := m.r12 }, mem := mem', freeHead := head', heapEnd := m.brk,
      allocLock := 0 } := by
    have nonnull : ¬ m.rdi = 0 := by omega
    have hdr : subq m.rdi 16 = b.hdr := by
      rw [subq_eq (by omega), ptr, Nat.add_sub_cancel]
    simp only [locked, entry, marked] at init marks joins
    simp only [Heap.free, Machine.pushq, if_neg nonnull, lockAcquire, ready.unlocked, if_true, bind_eq_bind,
      bind_some, init, hdrSize, hdr, marks, joins, lockRelease]
    rfl
  refine ⟨_, run, rfl, rfl, ⟨rfl, rfl, rfl, r13⟩, becomes.after (fun c held => ?_) fun c member held stays => ?_⟩
  · have other : c ≠ ⟨b.hdr, b.size, none⟩ := fun same => held (same ▸ rfl)
    have distinct : c ∈ left ++ right → c ≠ b := fun member same => layout.hdr_ne member (congrArg Block.hdr same)
    simp only [mem_middle_cons, other, false_or]
    exact ⟨fun member => ⟨.inr member, distinct member⟩, fun kept => kept.1.resolve_left kept.2⟩
  · exact keeps c ((mem_middle_cons.mp member).resolve_left stays.2) held

end Flinstone.Heap
