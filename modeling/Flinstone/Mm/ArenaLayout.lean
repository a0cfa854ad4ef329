import Flinstone.Mm.Arena
import Mathlib.Algebra.Order.BigOperators.Group.List
import Mathlib.Data.List.Pairwise

/-! # Live and freed blocks of an arena -/

namespace Flinstone.Mm
open Flinstone.Lib List

variable {site : Site} {bump size need : Nat} {blocks : List Block} {b c : Block}

def Block.ptr (b : Block) : Nat := b.hdr + hdrSize

theorem Block.ptr_ne_zero (b : Block) : b.ptr ≠ 0 := ne_of_gt (Nat.add_pos_right b.hdr (by decide))

theorem Block.ptr_sub (b : Block) : b.ptr - hdrSize = b.hdr := Nat.add_sub_cancel b.hdr hdrSize

structure Tiling (site : Site) (bump : Nat) (blocks : List Block) : Prop where
  sound : ∀ b ∈ blocks, b.Sound site bump
  apart : blocks.Pairwise Block.Apart
  total : (blocks.map Block.extent).sum = bump
  aligned : bump % 8 = 0
  within : bump ≤ site.capacity

namespace Tiling

theorem perm {others : List Block} (tiling : Tiling site bump blocks) (perm : blocks.Perm others) :
    Tiling site bump others where
  sound b member := tiling.sound b (perm.mem_iff.mpr member)
  apart := (perm.pairwise_iff Or.symm).mp tiling.apart
  total := (perm.map Block.extent).sum_eq ▸ tiling.total
  aligned := tiling.aligned
  within := tiling.within

theorem resize (tiling : Tiling site bump (b :: blocks)) (smaller : size ≤ b.size) :
    Tiling site bump ({ b with size := size } :: blocks) where
  sound := by
    obtain ⟨here, rest⟩ := forall_mem_cons.mp tiling.sound
    have room : hdrSize + size ≤ b.extent := (Nat.add_le_add_left smaller _).trans here.payload
    exact forall_mem_cons.mpr ⟨⟨room, here.node, here.aligned, here.above, here.below⟩, rest⟩
  apart := by
    obtain ⟨here, rest⟩ := pairwise_cons.mp tiling.apart
    exact pairwise_cons.mpr ⟨here, rest⟩
  total := tiling.total
  aligned := tiling.aligned
  within := tiling.within

theorem grow (tiling : Tiling site bump blocks) (payload : hdrSize + size ≤ need) (node : 16 ≤ need)
    (aligned : need % 8 = 0) (room : bump + need ≤ site.capacity) :
    Tiling site (bump + need) (⟨site.base + bump, need, size⟩ :: blocks) where
  sound := by
    have base := site.aligned
    have bumps := tiling.aligned
    refine forall_mem_cons.mpr ⟨⟨payload, node, by dsimp only; omega, by dsimp only; omega,
      by dsimp only; omega⟩, fun b member => ?_⟩
    obtain ⟨payload, node, aligned, above, below⟩ := tiling.sound b member
    exact ⟨payload, node, aligned, above, by omega⟩
  apart := pairwise_cons.mpr ⟨fun b member => .inr (tiling.sound b member).below, tiling.apart⟩
  total := by rw [map_cons, sum_cons, tiling.total, add_comm]
  aligned := by
    have bumps := tiling.aligned
    omega
  within := room

theorem length_le (tiling : Tiling site bump blocks) : blocks.length ≤ site.capacity := by
  have extents : ∀ extent ∈ blocks.map Block.extent, 1 ≤ extent := by
    intro extent member
    obtain ⟨b, placed, rfl⟩ := mem_map.mp member
    have node := (tiling.sound b placed).node
    omega
  have bound := card_nsmul_le_sum _ _ extents
  rw [tiling.total, length_map, nsmul_eq_mul, mul_one, Nat.cast_id] at bound
  exact bound.trans tiling.within

theorem top (tiling : Tiling site bump blocks) (member : b ∈ blocks) : b.hdr + b.extent < 2 ^ 64 := by
  have below := (tiling.sound b member).below
  have within := tiling.within
  have fits := site.fits
  unfold Site.capacity at within
  omega

theorem nonnull (tiling : Tiling site bump blocks) (member : b ∈ blocks) : b.hdr ≠ 0 := by
  have above := (tiling.sound b member).above
  have base := site.nonnull
  omega

theorem nodup (tiling : Tiling site bump blocks) : (blocks.map Block.ptr).Nodup := by
  refine pairwise_map.mpr (tiling.apart.imp_of_mem fun {b c} first second apart same => ?_)
  have node := (tiling.sound b first).node
  have other := (tiling.sound c second).node
  unfold Block.Apart Lib.Apart Block.ptr at *
  omega

end Tiling

theorem filter_ptr_ne {front back : List Block} (nodup : ((front ++ b :: back).map Block.ptr).Nodup) :
    (front ++ b :: back).filter (fun c => c.ptr ≠ b.ptr) = front ++ back := by
  rw [(perm_middle.map Block.ptr).nodup_iff, map_cons, nodup_cons] at nodup
  have away : ∀ c ∈ front ++ back, c.ptr ≠ b.ptr := by
    intro c member same
    exact nodup.1 (same ▸ mem_map_of_mem member)
  obtain ⟨before, after⟩ := forall_mem_append.mp away
  rw [filter_append, filter_cons_of_neg (by simp), filter_eq_self.mpr (by simpa using before),
    filter_eq_self.mpr (by simpa using after)]

abbrev Block.Keeps (s s' : Arena) (b : Block) : Prop := Lib.Keeps Block.hdr Block.extent s.mem s'.mem b

structure Layout (site : Site) (s : Arena) (live free : List Block) : Prop where
  tiling : Tiling site s.bump (live ++ free)
  headers : ∀ b ∈ live, s.word b.hdr = b.size
  chain : Chain s s.freelist free

namespace Layout
variable {s s' : Arena} {live free front back : List Block}

theorem start (site : Site) (mem : Memory) : Layout site ⟨0, 0, mem⟩ [] [] :=
  ⟨⟨by simp, .nil, rfl, rfl, Nat.zero_le _⟩, by simp, chain_nil.mpr rfl⟩

theorem sound_live (layout : Layout site s live free) (member : b ∈ live) : b.Sound site s.bump :=
  layout.tiling.sound b (mem_append_left _ member)

theorem node_live (layout : Layout site s live free) (member : b ∈ live) : 16 ≤ b.extent :=
  (layout.sound_live member).node

theorem nodup_live (layout : Layout site s live free) : (live.map Block.ptr).Nodup := by
  have nodup := layout.tiling.nodup
  rw [map_append, nodup_append] at nodup
  exact nodup.1

theorem nodup_free (layout : Layout site s live free) : (free.map Block.ptr).Nodup := by
  have nodup := layout.tiling.nodup
  rw [map_append, nodup_append] at nodup
  exact nodup.2.1

theorem node_free (layout : Layout site s live free) (member : b ∈ free) : 16 ≤ b.extent :=
  (layout.tiling.sound b (mem_append_right _ member)).node

theorem apart (layout : Layout site s live free) (first : b ∈ live) (second : c ∈ free) : b.Apart c :=
  (pairwise_append.mp layout.tiling.apart).2.2 b first c second

theorem apart_live (layout : Layout site s live free) (first : b ∈ live) (second : c ∈ live) (ne : b ≠ c) : b.Apart c :=
  (pairwise_append.mp layout.tiling.apart).1.forall first second ne

theorem header_of_keeps (layout : Layout site s live free) (member : b ∈ live) (keeps : b.Keeps s s') :
    s'.word b.hdr = b.size := by
  have node := layout.node_live member
  exact (Arena.word_congr fun x above below => keeps x above (by omega)).trans (layout.headers b member)

theorem chain_of_keeps (layout : Layout site s live free) (keeps : ∀ b ∈ free, b.Keeps s s') :
    Chain s' s.freelist free := by
  refine layout.chain.congr fun b member x above below => keeps b member x above ?_
  have node := layout.node_free member
  omega

theorem freelist_lt (layout : Layout site s live free) : s.freelist < 2 ^ 64 := by
  have chain := layout.chain
  cases free with
  | nil => exact chain_nil.mp chain ▸ Nat.two_pow_pos 64
  | cons b rest =>
    have top := layout.tiling.top (mem_append_right live mem_cons_self : b ∈ _)
    have head : s.freelist = b.hdr := (chain_cons.mp chain).1
    omega

theorem reuse (layout : Layout site s live free) (found : Unlinked s s' none free front back b size) :
    Layout site s' ({ b with size := size } :: live) (front ++ back) ∧ ∀ c ∈ live, c.Keeps s s' := by
  have keeps : ∀ c ∈ live, c.Keeps s s' := by
    intro c member x above below
    refine found.frame x (by simp) fun d other => ?_
    have apart := layout.apart member other
    have node := layout.node_free other
    unfold Block.Apart Lib.Apart at apart
    omega
  refine ⟨⟨?_, forall_mem_cons.mpr ⟨found.header, fun c member => ?_⟩, found.chain⟩, keeps⟩
  · have tiling := layout.tiling
    rw [found.split, ← append_assoc] at tiling
    rw [found.bump, cons_append, ← append_assoc]
    exact (tiling.perm perm_middle).resize found.large
  · exact layout.header_of_keeps member (keeps c member)

theorem extend (layout : Layout site s live free) (payload : hdrSize + size ≤ need) (node : 16 ≤ need)
    (aligned : need % 8 = 0) (room : s.bump + need ≤ site.capacity)
    (written : s' = { s.setWord (site.base + s.bump) size with bump := s.bump + need }) :
    Layout site s' (⟨site.base + s.bump, need, size⟩ :: live) free ∧ ∀ c ∈ live, c.Keeps s s' := by
  subst written
  have below : ∀ c ∈ live ++ free, c.Keeps s { s.setWord (site.base + s.bump) size with bump := s.bump + need } := by
    intro c member x above inside
    have top := (layout.tiling.sound c member).below
    exact Arena.setWord_mem_apart (by omega)
  have keeps := fun c member => below c (mem_append_left _ member)
  have fits : size < 2 ^ 64 := by
    have top := (layout.tiling.grow payload node aligned room).top mem_cons_self
    dsimp only at top
    omega
  exact ⟨⟨layout.tiling.grow payload node aligned room, forall_mem_cons.mpr
    ⟨Arena.word_setWord fits, fun c member => layout.header_of_keeps member (keeps c member)⟩,
    layout.chain_of_keeps fun c member => below c (mem_append_right _ member)⟩, keeps⟩

theorem release (layout : Layout site s (front ++ b :: back) free)
    (written : s' = { (s.setWord (b.hdr + 8) (s.word b.hdr)).setWord b.hdr s.freelist with freelist := b.hdr }) :
    Layout site s' (front ++ back) (b :: free) ∧ ∀ c ∈ front ++ back, c.Keeps s s' := by
  have frame : ∀ x, x < b.hdr ∨ b.hdr + 16 ≤ x → s'.mem x = s.mem x := by
    intro x outside
    rw [written]
    exact (Arena.setWord_mem_apart (by omega)).trans (Arena.setWord_mem_apart (by omega))
  have swap : (front ++ b :: back ++ free).Perm (b :: (front ++ back ++ free)) := by
    rw [append_assoc, append_assoc]
    exact perm_middle
  have tiling := layout.tiling.perm swap
  have away := (pairwise_cons.mp tiling.apart).1
  have node := (tiling.sound b mem_cons_self).node
  have keeps : ∀ c ∈ front ++ back ++ free, c.Keeps s s' := by
    intro c member x above below
    have apart := away c member
    unfold Block.Apart Lib.Apart at apart
    exact frame x (by omega)
  have rest : ∀ c ∈ front ++ back, c ∈ front ++ b :: back := by
    intro c member
    rcases mem_append.mp member with member | member
    · exact mem_append_left _ member
    · exact mem_append_right _ (mem_cons_of_mem _ member)
  have next : s'.word b.hdr = s.freelist := by
    rw [written]
    exact Arena.word_setWord layout.freelist_lt
  have data : s'.word (b.hdr + 8) = b.size := by
    have held := layout.headers b (mem_append_right _ mem_cons_self)
    rw [written, ← held]
    exact (Arena.word_setWord_apart (by omega)).trans (Arena.word_setWord Arena.word_lt)
  have bumped : s'.bump = s.bump := by rw [written]; rfl
  refine ⟨⟨?_, fun c member => ?_, ?_⟩, fun c member => keeps c (mem_append_left _ member)⟩
  · rw [bumped]
    exact tiling.perm perm_middle.symm
  · exact layout.header_of_keeps (rest c member) (keeps c (mem_append_left _ member))
  · refine chain_cons.mpr ⟨by rw [written], tiling.nonnull mem_cons_self, data, ?_⟩
    rw [next]
    exact layout.chain_of_keeps fun c member => keeps c (mem_append_right _ member)

theorem scribble (layout : Layout site s live free) (member : b ∈ live) {mem : Memory}
    (inside : ∀ x, x < b.ptr ∨ b.ptr + b.size ≤ x → mem x = s.mem x) :
    Layout site { s with mem := mem } live free := by
  have payload := (layout.sound_live member).payload
  unfold Block.ptr hdrSize at *
  refine ⟨layout.tiling, fun c other => ?_, layout.chain_of_keeps fun c other x above below => ?_⟩
  · refine (Arena.word_congr fun x above below => inside x ?_).trans (layout.headers c other)
    by_cases same : c = b
    · subst same
      omega
    · have apart := layout.apart_live other member same
      unfold Block.Apart Lib.Apart at apart
      omega
  · have apart := layout.apart member other
    unfold Block.Apart Lib.Apart at apart
    exact inside x (by omega)

end Layout

/-- `align_up` keeps every bit of the request, or what it leaves of it does not fit either. -/
def Arena.Admits (site : Site) (s : Arena) (size : Nat) : Prop :=
  size + 15 < 2 ^ 32 ∨ site.capacity < s.bump + (size + 15) % 2 ^ 32 / 8 * 8

instance (s : Arena) : Decidable (s.Admits site size) := inferInstanceAs (Decidable (_ ∨ _))

theorem Site.capacity_le (site : Site) : site.capacity ≤ 131072 := by
  unfold capacity
  cases site.domain <;> decide

namespace Layout
variable {s s' : Arena} {live freed : List Block}

inductive Allocates (site : Site) (s : Arena) (freed : List Block) (size : Nat) : Option (Nat × Arena) → Prop
  | refused (small : ∀ c ∈ freed, c.size < size) (full : site.capacity < s.bump + (size + 15) % 2 ^ 32 / 8 * 8) :
      Allocates site s freed size (some (0, s))
  | fresh (small : ∀ c ∈ freed, c.size < size) (room : s.bump + (size + 15) % 2 ^ 32 / 8 * 8 ≤ site.capacity) :
      Allocates site s freed size (some (site.base + s.bump + hdrSize,
        { s.setWord (site.base + s.bump) size with bump := s.bump + (size + 15) % 2 ^ 32 / 8 * 8 }))
  | reused {s' : Arena} {front back : List Block} {b : Block} (found : Unlinked s s' none freed front back b size) :
      Allocates site s freed size (some (b.ptr, s'))

theorem allocates (layout : Layout site s live freed) (positive : size ≠ 0) (fits : size < 2 ^ 64) :
    Allocates site s freed size (memDomainAllocNolock site s size) := by
  have tiling := layout.tiling
  have placed := fun c (member : c ∈ freed) => mem_append_right live member
  have enough : freed.length < site.capacity + 1 := by
    have all := tiling.length_le
    rw [length_append] at all
    omega
  have before : Before none freed := by simp [Before]
  have chain : Chain s (s.link none) freed := layout.chain
  have search := firstFit_spec (fun c member => layout.node_free member) (pairwise_append.mp tiling.apart).2.1
    before fits chain enough
  have within := tiling.within
  have most := site.capacity_le
  have rounded : alignUp ((hdrSize + size) % 2 ^ 64) = (size + 15) % 2 ^ 32 / 8 * 8 := by
    rw [alignUp_eq, hdrSize]
    omega
  have unwrapped : (s.bump + (size + 15) % 2 ^ 32 / 8 * 8) % 2 ^ 64 = s.bump + (size + 15) % 2 ^ 32 / 8 * 8 :=
    Nat.mod_eq_of_lt (by omega)
  rcases search with ⟨small, nothing⟩ | ⟨s', front, b, back, found, unlinked⟩
  · by_cases room : s.bump + (size + 15) % 2 ^ 32 / 8 * 8 ≤ site.capacity
    · have given := Allocates.fresh small room
      simpa only [memDomainAllocNolock, if_neg positive, nothing, rounded, Arena.setWord_bump, unwrapped,
        if_pos room] using given
    · have given := Allocates.refused small (not_le.mp room)
      simpa only [memDomainAllocNolock, if_neg positive, nothing, rounded, unwrapped, if_neg room] using given
  · have given : Allocates site s freed size _ := .reused unlinked
    simpa only [memDomainAllocNolock, if_neg positive, found, Block.ptr] using given

theorem fresh (layout : Layout site s live freed) (positive : size ≠ 0) (admits : s.Admits site size)
    (room : s.bump + (size + 15) % 2 ^ 32 / 8 * 8 ≤ site.capacity) :
    Layout site { s.setWord (site.base + s.bump) size with bump := s.bump + (size + 15) % 2 ^ 32 / 8 * 8 }
      (⟨site.base + s.bump, (size + 15) % 2 ^ 32 / 8 * 8, size⟩ :: live) freed ∧
      ∀ c ∈ live, c.Keeps s
        { s.setWord (site.base + s.bump) size with bump := s.bump + (size + 15) % 2 ^ 32 / 8 * 8 } := by
  have payload : hdrSize + size ≤ (size + 15) % 2 ^ 32 / 8 * 8 := by
    unfold Arena.Admits at admits
    unfold hdrSize
    omega
  have node : 16 ≤ (size + 15) % 2 ^ 32 / 8 * 8 := by
    omega
  exact layout.extend payload node (by omega) room rfl

theorem filter_fresh (layout : Layout site s live freed) :
    freed.filter (fun c => c.ptr ≠ site.base + s.bump + hdrSize) = freed := by
  refine filter_eq_self.mpr fun c member => ?_
  have below := (layout.tiling.sound c (mem_append_right live member)).below
  have above := layout.node_free member
  exact decide_eq_true (by unfold Block.ptr; omega)

theorem alloc (layout : Layout site s live freed) (positive : size ≠ 0) (fits : size < 2 ^ 64)
    (admits : s.Admits site size) :
    memDomainAllocNolock site s size = some (0, s) ∨ ∃ s' b rest,
      memDomainAllocNolock site s size = some (b.ptr, s') ∧ b.size = size ∧ Layout site s' (b :: live) rest ∧
      rest = freed.filter (fun c => c.ptr ≠ b.ptr) ∧ ∀ c ∈ live, c.Keeps s s' := by
  have given := layout.allocates positive fits
  generalize memDomainAllocNolock site s size = result at given ⊢
  cases given with
  | refused small full => exact .inl rfl
  | fresh small room =>
    obtain ⟨extended, keeps⟩ := layout.fresh positive admits room
    exact .inr ⟨_, _, freed, rfl, rfl, extended, layout.filter_fresh.symm, keeps⟩
  | @reused s' front back b found =>
    obtain ⟨reused, keeps⟩ := layout.reuse found
    refine .inr ⟨s', { b with size := size }, front ++ back, rfl, rfl, reused, ?_, keeps⟩
    have nodup := layout.nodup_free
    rw [found.split] at nodup ⊢
    exact (filter_ptr_ne nodup).symm

theorem owned (layout : Layout site s live freed) (member : b ∈ live) : arenaOwns site b.hdr := by
  obtain ⟨-, node, -, above, below⟩ := layout.sound_live member
  have within := layout.tiling.within
  exact ⟨above, by omega⟩

theorem free (layout : Layout site s live freed) (member : b ∈ live) :
    ∃ s', memDomainFreeNolock site s b.ptr = some s' ∧
      Layout site s' (live.filter fun c => c.ptr ≠ b.ptr) (b :: freed) ∧
      ∀ c ∈ live, c.ptr ≠ b.ptr → c.Keeps s s' := by
  have owned := layout.owned member
  have nodup := layout.nodup_live
  obtain ⟨front, back, rfl⟩ := append_of_mem member
  obtain ⟨released, keeps⟩ := layout.release rfl
  refine ⟨_, ?_, ?_, fun c other ne => keeps c ?_⟩
  · simp only [memDomainFreeNolock, if_neg b.ptr_ne_zero, b.ptr_sub, if_pos owned, Arena.setWord_freelist]
  · rw [filter_ptr_ne nodup]
    exact released
  · rw [← filter_ptr_ne nodup]
    exact mem_filter.mpr ⟨other, decide_eq_true ne⟩

theorem realloc (layout : Layout site s live freed) (member : b ∈ live) (positive : size ≠ 0)
    (fits : size < 2 ^ 64) (admits : s.Admits site size) :
    memDomainRealloc site s b.ptr size = some (0, s) ∨ ∃ s' c,
      memDomainRealloc site s b.ptr size = some (c.ptr, s') ∧ c.size = size ∧
      Layout site s' ((c :: live).filter fun d => d.ptr ≠ b.ptr) (b :: freed.filter fun d => d.ptr ≠ c.ptr) ∧
      (∀ d ∈ live, d.ptr ≠ b.ptr → d.Keeps s s') ∧
      ∀ i < min b.size size, s'.mem (c.ptr + i) = s.mem (b.ptr + i) := by
  rcases layout.alloc positive fits admits with refused | ⟨s₁, c, rest, given, sized, grown, rfl, keeps⟩
  · left
    simp [memDomainRealloc, b.ptr_ne_zero, positive, refused]
  right
  have fresh : ∀ d ∈ live, c.ptr ≠ d.ptr := by
    have nodup := grown.nodup_live
    rw [map_cons, nodup_cons] at nodup
    intro d other same
    exact nodup.1 (same ▸ mem_map_of_mem other)
  have apart : ∀ d ∈ live, c.Apart d := fun d other =>
    grown.apart_live mem_cons_self (mem_cons_of_mem _ other) fun same => fresh d other (congrArg _ same)
  have room := (grown.tiling.sound c mem_cons_self).payload
  have amount : (if b.size < size then b.size else size) = min b.size size := by
    split <;> omega
  have copied : Layout site { s₁ with mem := s₁.mem.copy c.ptr b.ptr (min b.size size) } (c :: live) _ :=
    grown.scribble mem_cons_self fun x outside => Memory.copy_apart (by omega)
  have kept : ∀ d ∈ live, d.Keeps s₁ { s₁ with mem := s₁.mem.copy c.ptr b.ptr (min b.size size) } := by
    intro d other x above below
    have away := apart d other
    unfold Block.Apart Lib.Apart at away
    unfold Block.ptr hdrSize at *
    exact Memory.copy_apart (by omega)
  obtain ⟨s', done, freed, others⟩ := copied.free (mem_cons_of_mem c member)
  refine ⟨s', c, ?_, sized, freed, fun d other ne => ?_, fun i below => ?_⟩
  · simp [memDomainRealloc, Block.ptr_ne_zero, positive, b.ptr_sub, layout.headers b member, given, amount, done]
  · exact ((keeps d other).trans (kept d other)).trans (others d (mem_cons_of_mem _ other) ne)
  · have place := (layout.sound_live member).payload
    have inside := others c mem_cons_self (fresh b member) (c.ptr + i)
      (by unfold Block.ptr; omega) (by unfold Block.ptr; omega)
    have source := keeps b member (b.ptr + i) (by unfold Block.ptr; omega) (by unfold Block.ptr; omega)
    exact (inside.trans (Memory.copy_at below)).trans source

end Layout

end Flinstone.Mm
