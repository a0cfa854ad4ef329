import Flinstone.Heap.Routines
import Flinstone.Lib.Calls
import Mathlib.Order.CompletePartialOrder
import Mathlib.Order.Interval.Set.Disjoint

/-! # Runs of the heap -/

namespace Flinstone.Heap
open Flinstone.Lib
open List hiding Disjoint

inductive HeapCall where
  | malloc (size : Nat) (answer : Answer)
  | free (ptr : Nat) (answer : Answer)
  | write (address : Nat) (byte : BitVec 8)
  | compute (regs : Registers)

structure Payload where
  ptr : Nat
  size : Nat

namespace HeapCall

def exec : HeapCall → Machine → Option Machine
  | malloc size answer, m => Heap.malloc answer { m with rdi := size }
  | free ptr answer, m => Heap.free answer { m with rdi := ptr }
  | write address byte, m => some { m with mem := Function.update m.mem address byte }
  | compute regs, m => some { m with toRegisters := regs }

def live (m' : Machine) (held : List Payload) : HeapCall → List Payload
  | malloc size _ => if m'.rax = 0 then held else ⟨m'.rax, size⟩ :: held
  | free ptr _ => held.filter fun p => p.ptr ≠ ptr
  | _ => held

/-- Only live pointers are freed, and neither the rounded size nor the new break wraps. -/
def Legal (s : Machine × List Payload) : HeapCall → Prop
  | malloc size _ => size + 15 < 2 ^ 64 ∧ s.1.brk + 16 + (size + 15) / 16 * 16 < 2 ^ 64
  | free ptr _ => ptr = 0 ∨ ∃ p ∈ s.2, p.ptr = ptr
  | write address _ => ∃ p ∈ s.2, p.ptr ≤ address ∧ address < p.ptr + p.size
  | compute _ => True

def run (call : HeapCall) (s : Machine × List Payload) : Option (Machine × List Payload) :=
  (call.exec s.1).map fun m' => (m', call.live m' s.2)

end HeapCall

structure Fresh (start : Nat) (m : Machine) : Prop where
  unlocked : m.allocLock = 0
  unset : m.heapEnd = 0
  empty : m.freeHead = 0
  brk : m.brk = start
  nonnull : 0 < start
  aligned : start % 16 = 0
  fits : start < 2 ^ 64

abbrev HeapReaches (first : Machine) (m : Machine) (live : List Payload) : Prop :=
  Reached (fun s call s' => HeapCall.run call s = some s') HeapCall.Legal (first, []) (m, live)

def sizeAt (m : Machine) (h : Nat) : Nat := andMinus16 (m.word h)

def Flagged (m : Machine) (h : Nat) : Prop := m.word h &&& flagFree ≠ 0

def Payload.bytes (p : Payload) (m : Machine) : Set Nat := Set.Ico p.ptr (p.ptr + sizeAt m (p.ptr - 16))

structure HeapSound (start : Nat) (m : Machine) (live : List Payload) (headers list : List Nat) : Prop where
  unset : m.heapEnd = 0 → headers = []
  tiles : m.heapEnd ≠ 0 → Tiles id (fun h => 16 + sizeAt m h) start headers m.heapEnd
  chain : Segment (fun h => m.word (h + 8)) 0 m.freeHead list 0
  once : list.Nodup
  flagged : ∀ h, h ∈ list ↔ h ∈ headers ∧ Flagged m h
  aligned : ∀ p ∈ live, p.ptr % 16 = 0
  long : ∀ p ∈ live, ∃ h ∈ headers, p.ptr = h + 16 ∧ p.size ≤ sizeAt m h
  disjoint : live.Pairwise fun p q => Disjoint (p.bytes m) (q.bytes m)
  apart : ∀ p ∈ live, ∀ h ∈ headers, Disjoint (p.bytes m) (Set.Ico h (h + 16))

def HeapCall.Spares (p : Payload) : HeapCall → Prop
  | malloc _ _ => True
  | free ptr _ => p.ptr ≠ ptr
  | write _ _ => False
  | compute _ => True

/-! ## Blocks for payloads -/

variable {start : Nat} {m m' : Machine} {live : List Payload} {blocks : List Block} {list : List Nat} {b : Block}

structure Tracked (start : Nat) (m : Machine) (live : List Payload) (blocks : List Block) (free : List Nat) : Prop
    extends Ready start m blocks free where
  tracks : ∀ p, p ∈ live ↔ ∃ b ∈ blocks, b.held = some p.size ∧ p.ptr = b.hdr + 16
  distinct : (live.map Payload.ptr).Nodup

theorem Fresh.tracked (fresh : Fresh start m) : Tracked start m [] [] [] where
  unlocked := fresh.unlocked
  layout := by
    refine ⟨fresh.nonnull, ?_, ?_, fresh.brk.symm, nofun, fresh.empty, nodup_nil, nofun⟩
    · exact fresh.brk ▸ fresh.fits
    · exact fresh.brk ▸ fresh.aligned
  complete := nofun
  ended := .inr ⟨fresh.unset, rfl⟩
  tracks := by simp
  distinct := nodup_nil

section
variable {p : Payload}

theorem Ready.sizeAt (ready : Ready start m blocks list) (placed : b ∈ blocks) : sizeAt m b.hdr = b.size := by
  exact ready.layout.size_header placed

theorem Ready.bytes (ready : Ready start m blocks list) (placed : b ∈ blocks) (ptr : p.ptr = b.hdr + 16) :
    p.bytes m = Set.Ico (b.hdr + 16) (b.hdr + b.extent) := by
  rw [Payload.bytes, ptr, Nat.add_sub_cancel, ready.sizeAt placed, add_assoc]
  rfl

theorem Ready.flagged (ready : Ready start m blocks list) (placed : b ∈ blocks) : Flagged m b.hdr ↔ b.held = none := by
  unfold Flagged Machine.word
  rw [ready.layout.flag_header placed, Block.flag]
  split
  · next unheld => exact iff_of_true (by decide) unheld
  · next live => exact iff_of_false (by decide) live

theorem Block.Apart.disjoint {c : Block} (apart : b.Apart c) {i j k : Nat} (above : b.hdr ≤ i) (left : c.hdr ≤ j)
    (right : k ≤ c.hdr + c.extent) : Disjoint (Set.Ico i (b.hdr + b.extent)) (Set.Ico j k) := by
  refine Set.disjoint_left.mpr fun x here there => ?_
  unfold Block.Apart Lib.Apart at apart
  simp only [Set.mem_Ico] at here there
  omega

theorem Tracked.heapSound (tracked : Tracked start m live blocks list) :
    HeapSound start m live (blocks.map Block.hdr) list := by
  have ready := tracked.toReady
  have known : ∀ p ∈ live, ∃ b ∈ blocks, b.held = some p.size ∧ p.ptr = b.hdr + 16 := fun p => (tracked.tracks p).mp
  constructor
  case unset =>
    intro unset
    rcases tracked.ended with ended | ⟨-, rfl⟩
    · exact absurd (ended.symm.trans unset) ready.brk_ne_zero
    · rfl
  case tiles =>
    intro set
    rw [tracked.ended.resolve_right fun ⟨unset, _⟩ => set unset]
    refine tracked.layout.tiles.map fun b placed => ⟨rfl, ?_⟩
    rw [ready.sizeAt placed]
    rfl
  case chain => exact tracked.layout.chain
  case once => exact tracked.layout.nodup
  case flagged =>
    intro h
    constructor
    · intro listed
      obtain ⟨b, placed, unheld, rfl⟩ := tracked.layout.known h listed
      exact ⟨mem_map_of_mem placed, (ready.flagged placed).mpr unheld⟩
    · rintro ⟨header, flag⟩
      obtain ⟨b, placed, rfl⟩ := mem_map.mp header
      exact tracked.complete b placed ((ready.flagged placed).mp flag)
  case aligned =>
    intro p member
    obtain ⟨b, placed, -, ptr⟩ := known p member
    have aligned := (tracked.layout.sound b placed).aligned
    omega
  case long =>
    intro p member
    obtain ⟨b, placed, held, ptr⟩ := known p member
    refine ⟨b.hdr, mem_map_of_mem placed, ptr, ?_⟩
    rw [ready.sizeAt placed]
    exact (tracked.layout.sound b placed).request p.size held
  case disjoint =>
    refine (pairwise_map.mp tracked.distinct).imp_of_mem fun {p q} first second ne => ?_
    obtain ⟨b, placed, -, ptr⟩ := known p first
    obtain ⟨c, other, -, ptr'⟩ := known q second
    rw [ready.bytes placed ptr, ready.bytes other ptr']
    have apart := tracked.layout.apart_of_ne placed other fun same => ne (by rw [ptr, ptr', same])
    exact apart.disjoint (Nat.le_add_right _ _) (Nat.le_add_right _ _) le_rfl
  case apart =>
    intro p member h header
    obtain ⟨b, placed, -, ptr⟩ := known p member
    obtain ⟨c, other, rfl⟩ := mem_map.mp header
    rw [ready.bytes placed ptr]
    by_cases same : b.hdr = c.hdr
    · rw [same]
      refine Set.disjoint_left.mpr fun x here there => ?_
      exact absurd here.1 (not_le.mpr there.2)
    · have apart := tracked.layout.apart_of_ne placed other fun equal => same (congrArg Block.hdr equal)
      refine apart.disjoint (Nat.le_add_right _ _) le_rfl ?_
      unfold Block.extent hdrSize
      omega

end

structure Payload.Kept (m m' : Machine) (p : Payload) : Prop where
  size : sizeAt m' (p.ptr - 16) = sizeAt m (p.ptr - 16)
  same : ∀ x ∈ p.bytes m, m'.mem x = m.mem x

variable {p : Payload} {s : Machine × List Payload}

theorem Becomes.tracked {stays : Block → Prop} {live' : List Payload}
    (becomes : Becomes start m.mem blocks m'.mem m'.freeHead m'.brk stays) (tracked : Tracked start m live blocks list)
    (unlocked : m'.allocLock = 0) (ended : m'.heapEnd = m'.brk)
    (tracks : ∀ p, p ∈ live' ↔ ∃ b, stays b ∧ b.held = some p.size ∧ p.ptr = b.hdr + 16)
    (distinct : (live'.map Payload.ptr).Nodup) :
    (∃ blocks' free', Tracked start m' live' blocks' free') ∧
      ∀ p ∈ live, (∀ b ∈ blocks, p.ptr = b.hdr + 16 → stays b) → p.Kept m m' := by
  obtain ⟨blocks', free', layout, complete, same, keeps⟩ := becomes
  have holds {b : Block} {n : Nat} (held : b.held = some n) : b.held ≠ none := by simp [held]
  refine ⟨⟨blocks', free', ⟨unlocked, layout, complete, .inl ended⟩, fun p => (tracks p).trans ?_, distinct⟩, ?_⟩
  · exact exists_congr fun b => and_congr_left fun ⟨held, _⟩ => (same b (holds held)).symm
  · intro p member spared
    obtain ⟨b, placed, held, ptr⟩ := (tracked.tracks p).mp member
    have kept := keeps b placed (holds held) (spared b placed ptr)
    constructor
    · rw [ptr, Nat.add_sub_cancel, sizeAt, sizeAt, Machine.word, Machine.word, kept.header]
    · intro x inside
      rw [tracked.toReady.bytes placed ptr] at inside
      exact kept x (by have := inside.1; omega) inside.2

theorem Tracked.compute (tracked : Tracked start m live blocks list) (regs : Registers) (stack : List Nat) :
    Tracked start { m with toRegisters := regs, stack := stack } live blocks list :=
  ⟨⟨tracked.unlocked, tracked.layout, tracked.complete, tracked.ended⟩, tracked.tracks, tracked.distinct⟩

theorem Served.tracked {size : Nat} (served : Served start m.mem blocks m' size)
    (tracked : Tracked start m live blocks list) (unlocked : m'.allocLock = 0) (ended : m'.heapEnd = m'.brk) :
    (∃ blocks' free', Tracked start m' (if m'.rax = 0 then live else ⟨m'.rax, size⟩ :: live) blocks' free') ∧
      ∀ p ∈ live, p.Kept m m' := by
  obtain ⟨failed, becomes⟩ | ⟨b, held, reply, fresh, becomes⟩ := served
  · rw [if_pos failed]
    obtain ⟨after, kept⟩ := becomes.tracked tracked unlocked ended tracked.tracks tracked.distinct
    exact ⟨after, fun p member => kept p member fun b placed _ => placed⟩
  · rw [if_neg (by omega), reply]
    have tracks : ∀ p, p ∈ Payload.mk (b.hdr + 16) size :: live ↔
        ∃ c, (c = b ∨ c ∈ blocks) ∧ c.held = some p.size ∧ p.ptr = c.hdr + 16 := by
      intro p
      rw [mem_cons, tracked.tracks p]
      constructor
      · rintro (rfl | ⟨c, placed, facts⟩)
        · exact ⟨b, .inl rfl, held, rfl⟩
        · exact ⟨c, .inr placed, facts⟩
      · rintro ⟨c, rfl | placed, held', ptr⟩
        · left
          cases p
          cases ptr
          cases held.symm.trans held'
          rfl
        · exact .inr ⟨c, placed, held', ptr⟩
    have distinct : ((Payload.mk (b.hdr + 16) size :: live).map Payload.ptr).Nodup := by
      refine nodup_cons.mpr ⟨fun member => ?_, tracked.distinct⟩
      obtain ⟨p, known, same⟩ := mem_map.mp member
      obtain ⟨c, placed, held, ptr⟩ := (tracked.tracks p).mp known
      exact fresh c placed (by simp [held]) (by dsimp only at same; omega)
    obtain ⟨after, kept⟩ := becomes.tracked tracked unlocked ended tracks distinct
    exact ⟨after, fun p member => kept p member fun c placed _ => .inr placed⟩

theorem Tracked.malloc (tracked : Tracked start m live blocks list) (answer : Answer)
    (room : Room m.mem list m.brk m.rdi) :
    ∃ m', malloc answer m = some m' ∧ m'.heapEnd ≠ 0 ∧ m.heapEnd ≤ m'.heapEnd ∧
      (∃ blocks' free', Tracked start m' (HeapCall.live m' live (.malloc m.rdi answer)) blocks' free') ∧
      ∀ p ∈ live, p.Kept m m' := by
  obtain ⟨m', run, unlocked, ended, above, -, served⟩ := malloc_spec answer tracked.toReady room
  have nonzero := tracked.toReady.brk_ne_zero
  have below : m.heapEnd ≤ m.brk := tracked.ended.elim le_of_eq fun unset => unset.1 ▸ Nat.zero_le _
  exact ⟨m', run, by omega, by omega, served.tracked tracked unlocked ended⟩

theorem Tracked.free (tracked : Tracked start m live blocks list) (answer : Answer)
    (holds : m.rdi = 0 ∨ ∃ p ∈ live, p.ptr = m.rdi) :
    ∃ m', Heap.free answer m = some m' ∧ Saved m m' ∧
      (∃ blocks' free', Tracked start m' (HeapCall.live m' live (.free m.rdi answer)) blocks' free') ∧
      ∀ p ∈ live, p.ptr ≠ m.rdi → p.Kept m m' := by
  rcases holds with null | ⟨p, member, ptr⟩
  · have run : Heap.free answer m = some m := if_pos null
    have all : HeapCall.live m live (.free m.rdi answer) = live := by
      refine filter_eq_self.mpr fun p member => ?_
      obtain ⟨b, -, -, ptr⟩ := (tracked.tracks p).mp member
      exact decide_eq_true (by omega)
    refine ⟨m, run, ⟨rfl, rfl, rfl, rfl⟩, ⟨blocks, list, ?_⟩, fun _ _ _ => ⟨rfl, fun _ _ => rfl⟩⟩
    rw [all]
    exact tracked
  · obtain ⟨b, placed, held, place⟩ := (tracked.tracks p).mp member
    obtain ⟨m', run, unlocked, ended, saved, becomes⟩ :=
      free_spec answer tracked.toReady placed (by simp [held]) (ptr.symm.trans place)
    have tracks : ∀ q, q ∈ HeapCall.live m' live (.free m.rdi answer) ↔
        ∃ c, (c ∈ blocks ∧ c ≠ b) ∧ c.held = some q.size ∧ q.ptr = c.hdr + 16 := by
      intro q
      rw [HeapCall.live, mem_filter, tracked.tracks q, decide_eq_true_eq]
      constructor
      · rintro ⟨⟨c, other, facts⟩, ne⟩
        refine ⟨c, ⟨other, fun same => ne ?_⟩, facts⟩
        rw [facts.2, same]
        omega
      · rintro ⟨c, ⟨other, ne⟩, facts⟩
        have apart := tracked.layout.apart_of_ne other placed ne
        unfold Block.Apart Lib.Apart Block.extent hdrSize at apart
        exact ⟨⟨c, other, facts⟩, by omega⟩
    have distinct : ((HeapCall.live m' live (.free m.rdi answer)).map Payload.ptr).Nodup :=
      tracked.distinct.sublist (filter_sublist.map Payload.ptr)
    obtain ⟨after, kept⟩ := becomes.tracked tracked unlocked ended tracks distinct
    refine ⟨m', run, saved, after, fun q known ne => kept q known fun c other ptr' => ⟨other, fun same => ne ?_⟩⟩
    rw [ptr', same]
    omega

theorem Tracked.place (tracked : Tracked start m live blocks list) (member : p ∈ live) :
    start + 16 ≤ p.ptr ∧ p.size ≤ sizeAt m (p.ptr - 16) ∧ p.ptr + sizeAt m (p.ptr - 16) ≤ m.brk := by
  obtain ⟨b, placed, held, ptr⟩ := (tracked.tracks p).mp member
  have request := (tracked.layout.sound b placed).request p.size held
  have within := tracked.layout.tiles.within placed
  unfold Block.extent hdrSize at within
  rw [ptr, Nat.add_sub_cancel, tracked.toReady.sizeAt placed]
  omega

theorem Tracked.overwrite (tracked : Tracked start m live blocks list) (member : p ∈ live) {mem' : Memory}
    (outside : ∀ x ∉ p.bytes m, mem' x = m.mem x) :
    Tracked start { m with mem := mem' } live blocks list ∧
      ∀ q ∈ live, q.ptr ≠ p.ptr → q.Kept m { m with mem := mem' } := by
  obtain ⟨b, placed, held, ptr⟩ := (tracked.tracks p).mp member
  have layout := tracked.layout
  rw [tracked.toReady.bytes placed ptr] at outside
  -- no byte of a header is written
  have words : ∀ c ∈ blocks, ∀ i ≤ 8, Memory.load mem' 8 (c.hdr + i) = m.mem.load 8 (c.hdr + i) := by
    intro c other i le
    refine Memory.load_congr fun x first last => outside x fun ⟨above, below⟩ => ?_
    by_cases same : c = b
    · subst same
      omega
    · have apart := layout.apart_of_ne other placed same
      unfold Block.Apart Lib.Apart Block.extent hdrSize at apart
      unfold Block.extent hdrSize at below
      omega
  refine ⟨⟨⟨tracked.unlocked, { layout with sound := ?_, chain := ?_ }, tracked.complete, tracked.ended⟩,
    tracked.tracks, tracked.distinct⟩, fun q known ne => ?_⟩
  · exact fun c other => (layout.sound c other).congr (words c other 0 (Nat.zero_le 8))
  · refine layout.chain.congr fun h listed => ?_
    obtain ⟨c, other, -, rfl⟩ := layout.known h listed
    exact words c other 8 le_rfl
  · obtain ⟨c, other, -, ptr'⟩ := (tracked.tracks q).mp known
    constructor
    · rw [ptr', Nat.add_sub_cancel]
      exact congrArg andMinus16 (words c other 0 (Nat.zero_le 8))
    · intro x inside
      rw [tracked.toReady.bytes other ptr'] at inside
      have apart := layout.apart_of_ne other placed fun same => ne (by rw [ptr, ptr', same])
      exact outside x fun here => Set.disjoint_left.mp
        (apart.disjoint (Nat.le_add_right _ 16) (Nat.le_add_right _ 16) le_rfl) inside here

def HeapCall.Allowed (list : List Nat) (s : Machine × List Payload) : HeapCall → Prop
  | malloc size _ => Room s.1.mem list s.1.brk size
  | call => call.Legal s

theorem HeapCall.Legal.allowed {call : HeapCall} (legal : call.Legal s) : call.Allowed list s := by
  cases call with
  | malloc size answer => exact .inr ⟨legal.1, .inr legal.2⟩
  | free ptr answer => exact legal
  | write address byte => exact legal
  | compute regs => exact legal

theorem Tracked.call (tracked : Tracked start m live blocks list) {call : HeapCall}
    (legal : call.Allowed list (m, live)) :
    ∃ m', call.exec m = some m' ∧ (∃ blocks' list', Tracked start m' (call.live m' live) blocks' list') ∧
      (∀ size answer, call = .malloc size answer → m'.heapEnd ≠ 0) ∧
      ∀ p ∈ live, call.Spares p → ∀ x ∈ p.bytes m, m'.mem x = m.mem x := by
  cases call with
  | malloc size answer =>
    obtain ⟨m', run, set, -, after, kept⟩ :=
      (tracked.compute { m.toRegisters with rdi := size } m.stack).malloc answer legal
    exact ⟨m', run, after, fun _ _ _ => set, fun p member _ => (kept p member).same⟩
  | free ptr answer =>
    obtain ⟨m', run, -, after, kept⟩ := (tracked.compute { m.toRegisters with rdi := ptr } m.stack).free answer legal
    exact ⟨m', run, after, nofun, fun p member spares => (kept p member spares).same⟩
  | write address byte =>
    obtain ⟨p, member, above, below⟩ := legal
    have inside : address ∈ p.bytes m := ⟨above, below.trans_le (Nat.add_le_add_left (tracked.place member).2.1 _)⟩
    have after := tracked.overwrite member fun x away =>
      Function.update_of_ne (ne_of_mem_of_not_mem inside away).symm byte m.mem
    exact ⟨_, rfl, ⟨blocks, list, after.1⟩, nofun, fun _ _ spares => spares.elim⟩
  | compute regs => exact ⟨_, rfl, ⟨blocks, list, tracked.compute regs m.stack⟩, nofun, fun _ _ _ _ _ => rfl⟩

def Tracks (start : Nat) (s : Machine × List Payload) : Prop := ∃ blocks list, Tracked start s.1 s.2 blocks list

def FreeList (m : Machine) (list : List Nat) : Prop := Segment (fun h => m.word (h + 8)) 0 m.freeHead list 0

theorem Tracks.call {s' : Machine × List Payload} {call : HeapCall} (tracks : Tracks start s)
    (legal : ∀ list, FreeList s.1 list → call.Allowed list s) (returned : call.run s = some s') : Tracks start s' := by
  obtain ⟨blocks, list, tracked⟩ := tracks
  obtain ⟨m', ran, rfl⟩ := Option.map_eq_some_iff.mp returned
  obtain ⟨m'', run, after, -⟩ := tracked.call (legal list tracked.layout.chain)
  obtain rfl : m'' = m' := Option.some.inj (run.symm.trans ran)
  exact after

theorem tracks_of_reaches {first : Machine} (fresh : Fresh start first) (reached : HeapReaches first m live) :
    Tracks start (m, live) :=
  reached.invariant ⟨[], [], fresh.tracked⟩ fun _ _ _ tracks legal returned =>
    tracks.call (fun _ _ => legal.allowed) returned

/-- The headers tile the heap, the free list has the flagged blocks, live payloads are apart and stay as they are. -/
theorem heap_safe {first : Machine} (fresh : Fresh start first) (reached : HeapReaches first m live) :
    (∃ headers list, HeapSound start m live headers list) ∧
      ∀ call, HeapCall.Legal (m, live) call → ∃ m', call.exec m = some m' ∧
        (∀ size answer, call = .malloc size answer → m'.heapEnd ≠ 0) ∧
        ∀ p ∈ live, call.Spares p → ∀ x ∈ p.bytes m, m'.mem x = m.mem x := by
  obtain ⟨blocks, list, tracked⟩ := tracks_of_reaches fresh reached
  refine ⟨⟨_, _, tracked.heapSound⟩, fun call legal => ?_⟩
  obtain ⟨m', run, -, facts⟩ := tracked.call legal.allowed
  exact ⟨m', run, facts⟩

/-! ## Two payloads -/

def granted : Answer := ⟨true, 0⟩

def booted : Machine where
  rax := 0
  rbx := 0
  rcx := 0
  rdx := 0
  rdi := 0
  rsi := 0
  r8 := 0
  r9 := 0
  r12 := 0
  r13 := 0
  stack := []
  mem := fun _ => 0
  heapEnd := 0
  freeHead := 0
  allocLock := 0
  brk := 4096

theorem booted_fresh : Fresh 4096 booted := by constructor <;> decide

instance (s : Machine × List Payload) (call : HeapCall) : Decidable (call.Legal s) := by
  unfold HeapCall.Legal
  cases call <;> infer_instance

def runLegal (calls : List HeapCall) : Option (Machine × List Payload) :=
  runCalls (fun call s => if call.Legal s then call.run s else none) calls (booted, [])

theorem reaches_of_runLegal {calls : List HeapCall} (ran : runLegal calls = some s) : HeapReaches booted s.1 s.2 := by
  refine Reached.start.runCalls calls (fun call _ s s' returned => ?_) ran
  split at returned
  · next legal => exact ⟨legal, returned⟩
  · cases returned

def twoPayloads : List HeapCall := [.malloc 10 granted, .malloc 40 granted, .free 4112 granted, .malloc 3 granted]

theorem heap_safe_after_reuse :
    ∃ m live, HeapReaches booted m live ∧ (m.heapEnd, live.map Payload.ptr) = (4192, [4112, 4144]) ∧
      ∃ headers list, HeapSound 4096 m live headers list := by
  have runs : (runLegal twoPayloads).map (fun s => (s.1.heapEnd, s.2.map Payload.ptr)) =
      some (4192, [4112, 4144]) := by decide +kernel
  obtain ⟨⟨m, live⟩, ran, facts⟩ := Option.map_eq_some_iff.mp runs
  have reached := reaches_of_runLegal ran
  exact ⟨m, live, reached, facts, (heap_safe booted_fresh reached).1⟩

end Flinstone.Heap
