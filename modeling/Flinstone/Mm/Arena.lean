import Flinstone.Lib.Bytes
import Flinstone.Lib.Segment
import Flinstone.Lib.Tiling
import Mathlib.Data.List.Perm.Basic

/-!
# Memory domains on bare metal

`mem_domain.c` built with `DRIVERS_BAREMETAL`.
-/

namespace Flinstone.Mm
open Flinstone.Lib List

inductive MemDomain
  | kernel
  | driver
  | fs
  | user
deriving DecidableEq, Repr

def arenaSize : MemDomain → Nat
  | .kernel => 64 * 1024
  | .driver => 64 * 1024
  | .fs => 128 * 1024
  | .user => 32 * 1024

/-- The array of a domain, where the linker put it. -/
structure Site where
  domain : MemDomain
  base : Nat
  nonnull : 0 < base
  aligned : base % 16 = 0
  fits : base + arenaSize domain < 2 ^ 64

def Site.capacity (site : Site) : Nat := arenaSize site.domain

structure Arena where
  bump : Nat
  freelist : Nat
  mem : Memory

def Arena.word (s : Arena) (p : Nat) : Nat := s.mem.load 8 p

def Arena.setWord (s : Arena) (p v : Nat) : Arena := { s with mem := s.mem.store 8 p v }

def hdrSize : Nat := 8

def arenaOwns (site : Site) (ptr : Nat) : Prop := site.base ≤ ptr ∧ ptr < site.base + site.capacity

instance (site : Site) (ptr : Nat) : Decidable (arenaOwns site ptr) := inferInstanceAs (Decidable (_ ∧ _))

/-- `~(ARENA_ALIGN - 1u)`: an `unsigned int`, which the conversion to `size_t` extends by zeros. -/
def alignMask : Nat := (~~~ (8#32 - 1#32)).toNat

def alignUp (n : Nat) : Nat := (n + 8 - 1) % 2 ^ 64 &&& alignMask

/-- `*pp`, for `pp` either `&a->freelist` or `&node->next`. -/
def Arena.link (s : Arena) : Option Nat → Nat
  | none => s.freelist
  | some node => s.word node

def Arena.setLink (s : Arena) (next : Nat) : Option Nat → Arena
  | none => { s with freelist := next }
  | some node => s.setWord node next

def firstFit : Nat → Arena → Option Nat → Nat → Option (Option (Nat × Arena))
  | 0, _, _, _ => none
  | fuel + 1, s, pp, size =>
    let node := s.link pp
    if node = 0 then some none
    else if s.word (node + 8) ≥ size then
      let s := s.setLink (s.word node) pp
      some (some (node + hdrSize, s.setWord node size))
    else firstFit fuel s (some node) size

def memDomainAllocNolock (site : Site) (s : Arena) (size : Nat) : Option (Nat × Arena) :=
  if size = 0 then some (0, s)
  else
    let need := alignUp ((hdrSize + size) % 2 ^ 64)
    -- a list of more nodes than the array has bytes is a loop
    match firstFit (site.capacity + 1) s none size with
    | none => none
    | some (some found) => some found
    | some none =>
      if (s.bump + need) % 2 ^ 64 ≤ site.capacity then
        let hdr := site.base + s.bump
        let s := s.setWord hdr size
        some (hdr + hdrSize, { s with bump := (s.bump + need) % 2 ^ 64 })
      else some (0, s)

def memDomainAlloc (site : Site) (s : Arena) (size : Nat) : Option (Nat × Arena) :=
  if size = 0 then some (0, s) else memDomainAllocNolock site s size

def memDomainCalloc (site : Site) (s : Arena) (nmemb size : Nat) : Option (Nat × Arena) :=
  if size ≠ 0 ∧ nmemb > (2 ^ 64 - 1) / size then some (0, s)
  else do
    let total := nmemb * size % 2 ^ 64
    let (p, s) ← memDomainAlloc site s total
    return (p, if p ≠ 0 then { s with mem := s.mem.zero p total } else s)

def memDomainFreeNolock (site : Site) (s : Arena) (ptr : Nat) : Option Arena :=
  if ptr = 0 then some s
  else
    let hdr := ptr - hdrSize
    if arenaOwns site hdr then
      let dataSize := s.word hdr
      let s := s.setWord (hdr + 8) dataSize
      some { s.setWord hdr s.freelist with freelist := hdr }
    else none

def memDomainFree (site : Site) (s : Arena) (ptr : Nat) : Option Arena :=
  if ptr = 0 then some s else memDomainFreeNolock site s ptr

def memDomainRealloc (site : Site) (s : Arena) (ptr size : Nat) : Option (Nat × Arena) :=
  if ptr = 0 then memDomainAlloc site s size
  else if size = 0 then do
    let s ← memDomainFree site s ptr
    return (0, s)
  else do
    let oldSize := s.word (ptr - hdrSize)
    let (np, s) ← memDomainAllocNolock site s size
    if np = 0 then return (0, s)
    let copyN := if oldSize < size then oldSize else size
    let s ← memDomainFreeNolock site { s with mem := s.mem.copy np ptr copyN } ptr
    return (np, s)

namespace Arena
variable {s s' : Arena} {p q v x : Nat} {pp : Option Nat}

@[simp] theorem setWord_bump : (s.setWord p v).bump = s.bump := rfl

@[simp] theorem setWord_freelist : (s.setWord p v).freelist = s.freelist := rfl

theorem word_lt : s.word p < 2 ^ 64 := Memory.load_lt

theorem word_setWord (fits : v < 2 ^ 64) : (s.setWord p v).word p = v := by
  have width : v < 256 ^ 8 := by omega
  exact Memory.load_store width

theorem word_setWord_apart (apart : q + 8 ≤ p ∨ p + 8 ≤ q) : (s.setWord p v).word q = s.word q :=
  Memory.load_store_apart apart

theorem setWord_mem_apart (apart : x < p ∨ p + 8 ≤ x) : (s.setWord p v).mem x = s.mem x := Memory.store_apart apart

theorem word_congr (same : ∀ x, p ≤ x → x < p + 8 → s'.mem x = s.mem x) : s'.word p = s.word p := Memory.load_congr same

@[simp] theorem setLink_bump : (s.setLink v pp).bump = s.bump := by cases pp <;> rfl

theorem setLink_mem_apart (apart : ∀ node, pp = some node → x < node ∨ node + 8 ≤ x) :
    (s.setLink v pp).mem x = s.mem x := by
  cases pp with
  | none => rfl
  | some node => exact setWord_mem_apart (apart node rfl)

theorem link_setLink (fits : v < 2 ^ 64) : (s.setLink v pp).link pp = v := by
  cases pp with
  | none => rfl
  | some node => exact word_setWord fits

theorem link_congr (head : pp = none → s'.freelist = s.freelist)
    (same : ∀ node, pp = some node → ∀ x, node ≤ x → x < node + 8 → s'.mem x = s.mem x) :
    s'.link pp = s.link pp := by
  cases pp with
  | none => exact head rfl
  | some node => exact word_congr (same node rfl)

end Arena

theorem alignUp_eq (n : Nat) : alignUp n = (n + 7) % 2 ^ 32 / 8 * 8 := by
  have mask : alignMask = (2 ^ 29 - 1) * 2 ^ 3 := by decide
  apply Nat.eq_of_testBit_eq
  intro i
  have low : (8 : Nat) = 2 ^ 3 := rfl
  rw [alignUp, mask, Nat.add_sub_assoc (by decide), Nat.testBit_and, Nat.testBit_mul_two_pow, low,
    Nat.testBit_mul_two_pow, Nat.testBit_div_two_pow, Nat.testBit_two_pow_sub_one, Nat.testBit_mod_two_pow,
    Nat.testBit_mod_two_pow]
  by_cases above : 3 ≤ i <;> by_cases below : i < 32 <;> grind

structure Block where
  hdr : Nat
  extent : Nat
  size : Nat

namespace Block

abbrev Apart (b c : Block) : Prop := Lib.Apart hdr extent b c

structure Sound (site : Site) (bump : Nat) (b : Block) : Prop where
  payload : hdrSize + b.size ≤ b.extent
  node : 16 ≤ b.extent
  aligned : b.hdr % 8 = 0
  above : site.base ≤ b.hdr
  below : b.hdr + b.extent ≤ site.base + bump

end Block

/-- The freed blocks, linked through their first words; the second word holds the size. -/
structure Chain (s : Arena) (p : Nat) (free : List Block) : Prop where
  segment : Segment s.word 0 p (free.map Block.hdr) 0
  data : ∀ b ∈ free, s.word (b.hdr + 8) = b.size

variable {s s' : Arena} {free rest : List Block} {pp : Option Nat} {size : Nat} {p : Nat}

theorem chain_nil : Chain s p [] ↔ p = 0 := ⟨fun chain => chain.segment, fun null => ⟨null, nofun⟩⟩

theorem chain_cons {b : Block} : Chain s p (b :: rest) ↔
    p = b.hdr ∧ b.hdr ≠ 0 ∧ s.word (b.hdr + 8) = b.size ∧ Chain s (s.word b.hdr) rest := by
  constructor
  · rintro ⟨⟨here, nonnull, segment⟩, data⟩
    obtain ⟨first, others⟩ := forall_mem_cons.mp data
    exact ⟨here, nonnull, first, segment, others⟩
  · rintro ⟨here, nonnull, first, segment, others⟩
    exact ⟨⟨here, nonnull, segment⟩, forall_mem_cons.mpr ⟨first, others⟩⟩

theorem Chain.congr (same : ∀ b ∈ free, ∀ x, b.hdr ≤ x → x < b.hdr + 16 → s'.mem x = s.mem x)
    (chain : Chain s p free) : Chain s' p free where
  segment := chain.segment.congr <| forall_mem_map.mpr fun b member =>
    Arena.word_congr fun x above below => same b member x above (by omega)
  data b member := (Arena.word_congr fun x above below => same b member x (by omega) (by omega)).trans
    (chain.data b member)

def Before (pp : Option Nat) (free : List Block) : Prop :=
  ∀ node, pp = some node → ∀ b ∈ free, node + 16 ≤ b.hdr ∨ b.hdr + b.extent ≤ node

structure Unlinked (s s' : Arena) (pp : Option Nat) (free front back : List Block) (b : Block) (size : Nat) : Prop where
  split : free = front ++ b :: back
  large : size ≤ b.size
  chain : Chain s' (s'.link pp) (front ++ back)
  header : s'.word b.hdr = size
  bump : s'.bump = s.bump
  head : pp ≠ none → s'.freelist = s.freelist
  frame : ∀ x, (∀ node, pp = some node → x < node ∨ node + 8 ≤ x) →
    (∀ c ∈ free, x < c.hdr ∨ c.hdr + 8 ≤ x) → s'.mem x = s.mem x

theorem Unlinked.here {b : Block}
    (node : 16 ≤ b.extent) (apart : ∀ c ∈ rest, b.Apart c) (nodes : ∀ c ∈ rest, 16 ≤ c.extent)
    (before : Before pp (b :: rest)) (large : size ≤ b.size) (fits : size < 2 ^ 64)
    (chain : Chain s (s.word b.hdr) rest) :
    Unlinked s ((s.setLink (s.word b.hdr) pp).setWord b.hdr size) pp (b :: rest) [] rest b size := by
  have frame : ∀ x, (∀ node, pp = some node → x < node ∨ node + 8 ≤ x) → x < b.hdr ∨ b.hdr + 8 ≤ x →
      ((s.setLink (s.word b.hdr) pp).setWord b.hdr size).mem x = s.mem x := by
    intro x cell header
    rw [Arena.setWord_mem_apart header, Arena.setLink_mem_apart cell]
  have link : ((s.setLink (s.word b.hdr) pp).setWord b.hdr size).link pp = s.word b.hdr := by
    have kept : ((s.setLink (s.word b.hdr) pp).setWord b.hdr size).link pp = (s.setLink (s.word b.hdr) pp).link pp := by
      refine Arena.link_congr (fun _ => Arena.setWord_freelist) fun node cell x above below => ?_
      have := before node cell b mem_cons_self
      exact Arena.setWord_mem_apart (by omega)
    exact kept.trans (Arena.link_setLink Arena.word_lt)
  refine ⟨rfl, large, ?_, Arena.word_setWord fits, by simp, ?_, fun x cell headers =>
    frame x cell (headers b mem_cons_self)⟩
  · rw [link]
    refine chain.congr fun c member x above below => frame x (fun node cell => ?_) ?_
    · have := before node cell c (mem_cons_of_mem _ member)
      have := nodes c member
      omega
    · have := apart c member
      have := nodes c member
      unfold Block.Apart Lib.Apart at *
      omega
  · intro inner
    cases pp with
    | none => exact absurd rfl inner
    | some node => rfl

theorem Unlinked.later {b c : Block} {front back : List Block}
    (node : 16 ≤ b.extent) (apart : ∀ c ∈ rest, b.Apart c) (nodes : ∀ c ∈ rest, 16 ≤ c.extent)
    (before : Before pp (b :: rest)) (here : s.link pp = b.hdr) (nonnull : b.hdr ≠ 0)
    (data : s.word (b.hdr + 8) = b.size)
    (found : Unlinked s s' (some b.hdr) rest front back c size) :
    Unlinked s s' pp (b :: rest) (b :: front) back c size := by
  have head : s'.freelist = s.freelist := found.head (by simp)
  have frame : ∀ x, x < b.hdr ∨ b.hdr + 8 ≤ x → (∀ c ∈ rest, x < c.hdr ∨ c.hdr + 8 ≤ x) → s'.mem x = s.mem x := by
    intro x header headers
    refine found.frame x (fun node same => ?_) headers
    obtain rfl := Option.some.inj same
    exact header
  have link : s'.link pp = s.link pp := by
    refine Arena.link_congr (fun _ => head) fun node cell x above below => ?_
    have away := before node cell
    refine frame x ?_ fun c member => ?_
    · have := away b mem_cons_self
      omega
    · have := away c (mem_cons_of_mem _ member)
      have := nodes c member
      omega
  have size : s'.word (b.hdr + 8) = s.word (b.hdr + 8) := by
    refine Arena.word_congr fun x above below => frame x (by omega) fun c member => ?_
    have := apart c member
    unfold Block.Apart Lib.Apart at *
    omega
  have chain : Chain s' (s'.link pp) (b :: front ++ back) :=
    chain_cons.mpr ⟨link.trans here, nonnull, size.trans data, found.chain⟩
  refine ⟨by rw [found.split, cons_append], found.large, chain, found.header, found.bump, fun _ => head,
    fun x cell headers => ?_⟩
  exact frame x (headers b mem_cons_self) fun c member => headers c (mem_cons_of_mem _ member)

theorem firstFit_spec {fuel : Nat}
    (nodes : ∀ b ∈ free, 16 ≤ b.extent) (apart : free.Pairwise Block.Apart)
    (before : Before pp free) (fits : size < 2 ^ 64) (chain : Chain s (s.link pp) free)
    (enough : free.length < fuel) :
    (∀ b ∈ free, b.size < size) ∧ firstFit fuel s pp size = some none ∨ ∃ s' front b back,
      firstFit fuel s pp size = some (some (b.hdr + hdrSize, s')) ∧ Unlinked s s' pp free front back b size := by
  induction free generalizing pp fuel with
  | nil =>
    obtain ⟨fuel, rfl⟩ := Nat.exists_eq_succ_of_ne_zero (ne_of_gt enough)
    have null : s.link pp = 0 := chain_nil.mp chain
    exact .inl ⟨nofun, by simp [firstFit, null]⟩
  | cons b rest ih =>
    obtain ⟨fuel, rfl⟩ := Nat.exists_eq_succ_of_ne_zero (ne_of_gt (Nat.zero_lt_of_lt enough))
    obtain ⟨here, cell, data, chain⟩ := chain_cons.mp chain
    have node := nodes b mem_cons_self
    have others := fun c member => nodes c (mem_cons_of_mem _ member)
    obtain ⟨away, apart⟩ := pairwise_cons.mp apart
    by_cases large : b.size ≥ size
    · exact .inr ⟨_, [], b, rest, by simp [firstFit, here, cell, data, large],
        .here node away others before large fits chain⟩
    · have skips : firstFit (fuel + 1) s pp size = firstFit fuel s (some b.hdr) size := by
        simp [firstFit, here, cell, data, large]
      rw [skips]
      have beyond : Before (some b.hdr) rest := by
        intro node same c member
        obtain rfl := Option.some.inj same
        have := away c member
        unfold Block.Apart Lib.Apart at this
        omega
      have shorter : rest.length < fuel := by simpa using enough
      refine (ih others apart beyond chain shorter).imp
        (.imp_left fun small => forall_mem_cons.mpr ⟨not_le.mp large, small⟩) ?_
      rintro ⟨s', front, c, back, found, unlinked⟩
      exact ⟨s', b :: front, c, back, found, unlinked.later node away others before here cell data⟩

end Flinstone.Mm
