import Flinstone.Mm.ArenaSafety

/-! # Sizes of requests and of blocks -/

namespace Flinstone.Mm
open Flinstone.Lib Option

/-- The size is a `size_t`. The product of a `calloc` may be larger. -/
def ArenaCall.Fits : ArenaCall → Prop
  | .alloc size => size < 2 ^ 64
  | .realloc _ size => size < 2 ^ 64
  | _ => True

def Arena.Takes (site : Site) (s : Arena) (call : ArenaCall) : Prop := 2 ^ 64 ≤ call.request ∨ s.AdmitsCall site call

inductive ArenaUse (site : Site) : Arena → Client → Prop
  | start (mem : Memory) : ArenaUse site ⟨0, 0, mem⟩ ⟨[], []⟩
  | call {s s' : Arena} {c : Client} {call : ArenaCall} {reply : Nat} (use : ArenaUse site s c) (owns : c.Owns call)
      (fits : call.Fits) (takes : s.Takes site call) (returns : call.exec site s = some (reply, s')) :
      ArenaUse site s' (c.after reply call)

def Serves (site : Site) (c : Client) (call : ArenaCall) (reply : Nat) : Prop :=
  Payload.bytes (reply, call.request) ⊆ Set.Ico site.base (site.base + site.capacity) ∧
    ∀ p ∈ c.live, call.Spares p → Disjoint (Payload.bytes (reply, call.request)) p.bytes

variable {site : Site} {s s' : Arena} {c : Client} {live freed : List Block} {b : Block} {call : ArenaCall}
variable {reply size : Nat}

theorem ArenaCall.request_lt (fits : call.Fits) (large : 2 ^ 64 ≤ call.request) :
    ∃ nmemb size, call = .calloc nmemb size ∧ size ≠ 0 ∧ nmemb > (2 ^ 64 - 1) / size := by
  cases call with
  | alloc size => exact absurd fits (not_lt.mpr large)
  | calloc nmemb size =>
    have positive : size ≠ 0 := by
      rintro rfl
      exact absurd large (by simp [request])
    refine ⟨nmemb, size, rfl, positive, ?_⟩
    rw [gt_iff_lt, Nat.div_lt_iff_lt_mul (pos_of_ne_zero positive)]
    change 2 ^ 64 ≤ nmemb * size at large
    omega
  | realloc ptr size => exact absurd fits (not_lt.mpr large)
  | free ptr => exact absurd large (by simp [request])
  | write address byte => exact absurd large (by simp [request])

theorem ArenaCall.exec_overflow (fits : call.Fits) (large : 2 ^ 64 ≤ call.request) :
    call.exec site s = some (0, s) ∧ ∀ c : Client, c.after 0 call = c := by
  obtain ⟨nmemb, size, rfl, overflow⟩ := request_lt fits large
  exact ⟨if_pos overflow, fun _ => rfl⟩

theorem ArenaUse.layout (use : ArenaUse site s c) : ∃ live freed, Layout site s live freed ∧ c = .of live freed := by
  induction use with
  | start mem => exact ⟨[], [], .start site mem, rfl⟩
  | call use owns fits takes returns ih =>
    obtain ⟨live, freed, layout, rfl⟩ := ih
    rcases lt_or_ge (ArenaCall.request _) (2 ^ 64) with small | large
    · obtain ⟨reply, s', live, freed, executed, next, after, -⟩ :=
        layout.call owns small (takes.resolve_left (not_le.mpr small))
      obtain ⟨rfl, rfl⟩ := Prod.mk.inj (some.inj (returns.symm.trans executed))
      exact ⟨live, freed, next, after⟩
    · obtain ⟨refused, same⟩ := ArenaCall.exec_overflow fits large
      obtain ⟨rfl, rfl⟩ := Prod.mk.inj (some.inj (returns.symm.trans refused))
      exact ⟨live, freed, layout, same _⟩

theorem memDomainAlloc_eq : memDomainAlloc site s size = memDomainAllocNolock site s size := by
  unfold memDomainAlloc memDomainAllocNolock
  split <;> rfl

theorem Layout.freed_again (layout : Layout site s live freed) (member : b ∈ live) (t : Arena) :
    ∃ t', memDomainFreeNolock site t b.ptr = some t' := by
  simp [memDomainFreeNolock, b.ptr_ne_zero, b.ptr_sub, layout.owned member]

theorem Layout.exec_reply (layout : Layout site s live freed) (owns : (Client.of live freed).Owns call)
    (fits : call.request < 2 ^ 64) :
    (call.exec site s).map Prod.fst = (memDomainAllocNolock site s call.request).map Prod.fst := by
  have zero : memDomainAllocNolock site s 0 = some (0, s) := if_pos rfl
  cases call with
  | alloc size => exact congrArg _ memDomainAlloc_eq
  | calloc nmemb size =>
    have small : ¬ (size ≠ 0 ∧ nmemb > (2 ^ 64 - 1) / size) := by
      rintro ⟨positive, large⟩
      rw [gt_iff_lt, Nat.div_lt_iff_lt_mul (pos_of_ne_zero positive)] at large
      change nmemb * size < 2 ^ 64 at fits
      omega
    have total : nmemb * size % 2 ^ 64 = nmemb * size := Nat.mod_eq_of_lt fits
    simp only [ArenaCall.exec, memDomainCalloc, if_neg small, total, memDomainAlloc_eq, ArenaCall.request]
    cases memDomainAllocNolock site s (nmemb * size) <;> rfl
  | realloc ptr size =>
    simp only [ArenaCall.exec, memDomainRealloc, memDomainFree, memDomainAlloc_eq, ArenaCall.request]
    rcases Client.of_holds owns with rfl | ⟨b, member, rfl⟩
    · rfl
    rw [if_neg b.ptr_ne_zero, if_neg b.ptr_ne_zero]
    by_cases empty : size = 0
    · obtain ⟨t, freed⟩ := layout.freed_again member s
      rw [if_pos empty, empty, zero, freed]
      rfl
    rw [if_neg empty]
    cases memDomainAllocNolock site s size with
    | none => rfl
    | some given =>
      obtain ⟨np, s₁⟩ := given
      by_cases null : np = 0
      · simp [null]
      · obtain ⟨t, freed⟩ := layout.freed_again member { s₁ with
          mem := s₁.mem.copy np b.ptr (if s.word (b.ptr - hdrSize) < size then s.word (b.ptr - hdrSize) else size) }
        simp [null, freed]
  | free ptr =>
    simp only [ArenaCall.exec, memDomainFree, ArenaCall.request, zero]
    rcases Client.of_holds owns with rfl | ⟨b, member, rfl⟩
    · rfl
    · obtain ⟨t, freed⟩ := layout.freed_again member s
      rw [if_neg b.ptr_ne_zero, freed]
      rfl
  | write address byte => exact (congrArg (Option.map Prod.fst) zero).symm

theorem Layout.served (layout : Layout site s (b :: live) freed) (sized : call.request = b.size) :
    Serves site (.of live freed) call b.ptr := by
  have sound := layout.arenaSound
  have inside := sound.inside b.payload List.mem_cons_self
  have apart := (List.pairwise_cons.mp sound.disjoint).1
  rw [Serves, sized]
  exact ⟨inside.trans (Set.Ico_subset_Ico_right (Nat.add_le_add_left sound.within _)), fun p member _ => apart p member⟩

theorem arena_serves_iff {site : Site} {s : Arena} {c : Client} (use : ArenaUse site s c) {call : ArenaCall}
    (owns : c.Owns call) (fits : call.Fits) :
    (∀ reply s', call.exec site s = some (reply, s') → reply ≠ 0 → Serves site c call reply) ↔ s.Takes site call := by
  obtain ⟨live, freed, layout, rfl⟩ := use.layout
  rcases lt_or_ge call.request (2 ^ 64) with small | large
  · have same := layout.exec_reply owns small
    rw [Arena.Takes, or_iff_right (not_le.mpr small), Arena.AdmitsCall]
    by_cases empty : call.request = 0
    · rw [empty] at same ⊢
      refine iff_of_true (fun reply s' returns nonnull => ?_) (.inl (by decide))
      rw [returns] at same
      exact absurd (some.inj same) nonnull
    constructor
    · intro serves
      by_contra lossy
      obtain ⟨wide, room⟩ := not_or.mp lossy
      have most := site.capacity_le
      have given := layout.allocates empty small
      generalize memDomainAllocNolock site s call.request = result at same given
      cases given with
      | refused _ full => exact room full
      | fresh _ _ =>
        obtain ⟨⟨reply, s'⟩, returns, rfl⟩ := map_eq_some_iff.mp same
        have inside := (serves _ s' returns (Nat.add_pos_right _ (by decide)).ne').1
        have last : max (site.base + s.bump + hdrSize) (site.base + site.capacity) ∈ _ :=
          inside ⟨le_max_left .., by dsimp only; omega⟩
        exact absurd last.2 (not_lt.mpr (le_max_right ..))
      | @reused _ _ _ b found =>
        have member : b ∈ live ++ freed := by simp [found.split]
        have sound := layout.tiling.sound b member
        have within := layout.tiling.within
        have payload := sound.payload
        have above := sound.above
        have below := sound.below
        have large := found.large
        omega
    · intro admits reply s' returns nonnull
      rw [returns] at same
      rcases layout.alloc empty small admits with refused | ⟨s₁, b, rest, given, sized, grown, -⟩
      · rw [refused] at same
        exact absurd (some.inj same) nonnull
      · rw [given] at same
        rw [show reply = b.ptr from some.inj same]
        exact grown.served sized.symm
  · refine iff_of_true (fun reply s' returns nonnull => ?_) (.inl large)
    rw [(ArenaCall.exec_overflow fits large).1] at returns
    cases returns
    exact absurd rfl nonnull

theorem arena_serves_small : Serves kernelSite ⟨[(0x200008, 16)], []⟩ (.alloc 24) 0x200020 := by
  have start : ArenaUse kernelSite _ _ := .start fun _ => 0
  have owns : ∀ (c : Client) size, c.Owns (.alloc size) := fun _ _ => trivial
  have fits : ∀ size < 100, (ArenaCall.alloc size).Fits := fun size small => small.trans (by decide)
  have use := start.call (owns _ 16) (fits 16 (by decide)) (.inr (.inl (by decide))) rfl
  exact (arena_serves_iff use (owns _ 24) (fits 24 (by decide))).mpr (.inr (.inl (by decide))) _ _ rfl (by decide)

theorem arena_short_changes : ∃ s, memDomainAlloc kernelSite ⟨0, 0, fun _ => 0⟩ (2 ^ 64 - 1) = some (0x200008, s) ∧
    s.bump = 8 ∧ ¬ Serves kernelSite ⟨[], []⟩ (.alloc (2 ^ 64 - 1)) 0x200008 := by
  refine ⟨_, rfl, rfl, fun serves => ?_⟩
  have last : 0x300000 ∈ Set.Ico 0x200000 (0x200000 + 65536) := serves.1 ⟨by decide, by decide⟩
  exact absurd last.2 (by decide)

end Flinstone.Mm
