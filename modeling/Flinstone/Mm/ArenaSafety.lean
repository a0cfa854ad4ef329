import Flinstone.Mm.ArenaLayout
import Mathlib.Data.List.Nodup
import Mathlib.Order.CompletePartialOrder
import Mathlib.Order.Interval.Set.Disjoint

/-! # Runs of the allocator -/

namespace Flinstone.Mm
open Flinstone.Lib Function
open List hiding Disjoint

inductive ArenaCall
  | alloc (size : Nat)
  | calloc (nmemb size : Nat)
  | realloc (ptr size : Nat)
  | free (ptr : Nat)
  | write (address : Nat) (byte : BitVec 8)

namespace ArenaCall

def exec (site : Site) (s : Arena) : ArenaCall → Option (Nat × Arena)
  | .alloc size => memDomainAlloc site s size
  | .calloc nmemb size => memDomainCalloc site s nmemb size
  | .realloc ptr size => memDomainRealloc site s ptr size
  | .free ptr => (memDomainFree site s ptr).map (Prod.mk 0)
  | .write address byte => some (0, { s with mem := update s.mem address byte })

def request : ArenaCall → Nat
  | .alloc size => size
  | .calloc nmemb size => nmemb * size
  | .realloc _ size => size
  | .free _ => 0
  | .write _ _ => 0

end ArenaCall

abbrev Payload := Nat × Nat

def Payload.bytes (p : Payload) : Set Nat := Set.Ico p.1 (p.1 + p.2)

structure Client where
  live : List Payload
  freed : List Nat

namespace Client

def gain (c : Client) (reply size : Nat) : Client :=
  if reply = 0 then c else ⟨(reply, size) :: c.live, c.freed.filter fun q => q ≠ reply⟩

def release (c : Client) (ptr : Nat) : Client :=
  if ptr = 0 then c else ⟨c.live.filter fun p => p.1 ≠ ptr, ptr :: c.freed⟩

def after (c : Client) (reply : Nat) : ArenaCall → Client
  | .alloc size => c.gain reply size
  | .calloc nmemb size => c.gain reply (nmemb * size)
  | .realloc ptr size =>
    if size = 0 then c.release ptr
    else if reply = 0 then c
    else (c.gain reply size).release ptr
  | .free ptr => c.release ptr
  | .write _ _ => c

def Holds (c : Client) (ptr : Nat) : Prop := ptr = 0 ∨ ∃ p ∈ c.live, p.1 = ptr

def Owns (c : Client) : ArenaCall → Prop
  | .alloc _ => True
  | .calloc _ _ => True
  | .realloc ptr _ => c.Holds ptr
  | .free ptr => c.Holds ptr
  | .write address _ => ∃ p ∈ c.live, address ∈ p.bytes

structure Legal (c : Client) (call : ArenaCall) : Prop where
  owns : c.Owns call
  bound : hdrSize + call.request + 7 < 2 ^ 64

end Client

/-- Arena and client after some sequence of legal calls, each of which met the condition `Meets`. -/
inductive ArenaRun (Meets : Arena → ArenaCall → Prop) (site : Site) : Arena → Client → Prop
  | start (mem : Memory) : ArenaRun Meets site ⟨0, 0, mem⟩ ⟨[], []⟩
  | call {s s' : Arena} {c : Client} {call : ArenaCall} {reply : Nat} (run : ArenaRun Meets site s c)
      (legal : c.Legal call) (meets : Meets s call) (returns : call.exec site s = some (reply, s')) :
      ArenaRun Meets site s' (c.after reply call)

def FreeList (s : Arena) : Nat → List Nat → Prop
  | p, [] => p = 0
  | p, q :: rest => p ≠ 0 ∧ q = p + hdrSize ∧ FreeList s (s.word p) rest

structure ArenaSound (site : Site) (s : Arena) (c : Client) : Prop where
  within : s.bump ≤ site.capacity
  aligned : ∀ p ∈ c.live, p.1 % 8 = 0
  inside : ∀ p ∈ c.live, p.bytes ⊆ Set.Ico site.base (site.base + s.bump)
  disjoint : c.live.Pairwise fun p q => Disjoint p.bytes q.bytes
  headers : ∀ p ∈ c.live, ∀ q ∈ c.live, Disjoint p.bytes (Set.Ico (q.1 - hdrSize) q.1)
  nodes : ∀ p ∈ c.live, ∀ q ∈ c.freed, Disjoint p.bytes (Set.Ico (q - hdrSize) (q + 8))
  list : FreeList s s.freelist c.freed
  once : c.freed.Nodup

def ArenaCall.Spares (p : Payload) : ArenaCall → Prop
  | .alloc _ => True
  | .calloc _ _ => True
  | .realloc ptr _ => p.1 ≠ ptr
  | .free ptr => p.1 ≠ ptr
  | .write address _ => address ∉ p.bytes

structure ArenaStep (c : Client) (s s' : Arena) (reply : Nat) (call : ArenaCall) : Prop where
  others : ∀ p ∈ c.live, call.Spares p → ∀ x ∈ p.bytes, s'.mem x = s.mem x
  moved : ∀ p ∈ c.live, ∀ size, call = .realloc p.1 size → reply ≠ 0 →
    ∀ i < min p.2 size, s'.mem (reply + i) = s.mem (p.1 + i)
  refused : ∀ p ∈ c.live, ∀ size, call = .realloc p.1 size → size ≠ 0 → reply = 0 →
    p ∈ (c.after reply call).live ∧ ∀ x ∈ p.bytes, s'.mem x = s.mem x

/-! ## Blocks for payloads -/

variable {site : Site} {s s' : Arena} {live freed : List Block} {b : Block}

def Block.payload (b : Block) : Payload := (b.ptr, b.size)

def Client.of (live freed : List Block) : Client := ⟨live.map Block.payload, freed.map Block.ptr⟩

theorem Client.of_gain (live freed : List Block) (b : Block) :
    (of live freed).gain b.ptr b.size = .of (b :: live) (freed.filter fun c => c.ptr ≠ b.ptr) := by
  simp [gain, of, b.ptr_ne_zero, filter_map, Block.payload, comp_def]

theorem Client.of_release (live freed : List Block) (b : Block) :
    (of live freed).release b.ptr = .of (live.filter fun c => c.ptr ≠ b.ptr) (b :: freed) := by
  rw [release, if_neg b.ptr_ne_zero, of, filter_map]
  rfl

theorem Client.of_holds {ptr : Nat} (holds : (of live freed).Holds ptr) : ptr = 0 ∨ ∃ b ∈ live, ptr = b.ptr := by
  rcases holds with null | ⟨p, member, rfl⟩
  · exact .inl null
  · obtain ⟨b, placed, rfl⟩ := mem_map.mp member
    exact .inr ⟨b, placed, rfl⟩

theorem Chain.freeList {p : Nat} (chain : Chain s p freed) : FreeList s p (freed.map Block.ptr) := by
  induction freed generalizing p with
  | nil => exact chain_nil.mp chain
  | cons b rest ih =>
    obtain ⟨rfl, nonnull, -, chain⟩ := chain_cons.mp chain
    exact ⟨nonnull, rfl, ih chain⟩

theorem Block.Sound.mem_bytes (sound : b.Sound site s.bump) {x : Nat} (member : x ∈ b.payload.bytes) :
    b.hdr + 8 ≤ x ∧ x < b.hdr + b.extent := by
  have room := sound.payload
  obtain ⟨above, below⟩ := member
  simp only [Block.payload, ptr, hdrSize] at above below room
  omega

theorem Block.Sound.disjoint {c : Block} (sound : b.Sound site s.bump) (apart : b.Apart c) {bytes : Set Nat}
    (inside : ∀ x ∈ bytes, c.hdr ≤ x ∧ x < c.hdr + c.extent) : Disjoint b.payload.bytes bytes := by
  refine Set.disjoint_left.mpr fun x first second => ?_
  have here := sound.mem_bytes first
  have there := inside x second
  unfold Block.Apart Lib.Apart at apart
  omega

theorem Layout.arenaSound (layout : Layout site s live freed) : ArenaSound site s (.of live freed) := by
  have held := fun b (member : b ∈ live) => layout.sound_live member
  refine ⟨layout.tiling.within, forall_mem_map.mpr fun b member => ?_,
    forall_mem_map.mpr fun b member => ?_, pairwise_map.mpr ?_,
    forall_mem_map.mpr fun b member => forall_mem_map.mpr fun c other => ?_,
    forall_mem_map.mpr fun b member => forall_mem_map.mpr fun c other => ?_, ?_, layout.nodup_free⟩
  · have aligned := (held b member).aligned
    simp only [Block.payload, Block.ptr, hdrSize]
    omega
  · intro x inside
    have place := (held b member).mem_bytes inside
    have above := (held b member).above
    have below := (held b member).below
    exact ⟨by omega, by omega⟩
  · refine (pairwise_append.mp layout.tiling.apart).1.imp_of_mem fun first second apart => ?_
    refine (held _ first).disjoint apart fun x inside => ?_
    have place := (held _ second).mem_bytes inside
    omega
  · have header : ∀ x ∈ Set.Ico (c.payload.1 - hdrSize) c.payload.1, c.hdr ≤ x ∧ x < c.hdr + 8 := by
      rintro x ⟨above, below⟩
      simp only [Block.payload, Block.ptr, hdrSize] at above below
      omega
    by_cases same : b = c
    · subst same
      refine Set.disjoint_left.mpr fun x inside before => ?_
      have place := (held b member).mem_bytes inside
      have cell := header x before
      omega
    · refine (held b member).disjoint (layout.apart_live member other same) fun x inside => ?_
      have node := layout.node_live other
      have cell := header x inside
      omega
  · refine (held b member).disjoint (layout.apart member other) ?_
    rintro x ⟨above, below⟩
    have node := layout.node_free other
    simp only [Block.ptr, hdrSize] at above below
    omega
  · exact layout.chain.freeList

theorem Layout.spared {call : ArenaCall} (layout : Layout site s live freed)
    (others : ∀ b ∈ live, call.Spares b.payload → b.Keeps s s') :
    ∀ p ∈ (Client.of live freed).live, call.Spares p → ∀ x ∈ p.bytes, s'.mem x = s.mem x := by
  refine forall_mem_map.mpr fun b member spares x inside => ?_
  have place := (layout.sound_live member).mem_bytes inside
  exact others b member spares x (by omega) place.2

theorem Layout.step {call : ArenaCall} {reply : Nat} (layout : Layout site s live freed)
    (others : ∀ b ∈ live, call.Spares b.payload → b.Keeps s s')
    (elsewhere : ∀ b ∈ live, ∀ size, call ≠ .realloc b.ptr size) :
    ArenaStep (.of live freed) s s' reply call :=
  ⟨layout.spared others, forall_mem_map.mpr fun b member size same => absurd same (elsewhere b member size),
    forall_mem_map.mpr fun b member size same => absurd same (elsewhere b member size)⟩

theorem Layout.step_realloc {reply size : Nat} (layout : Layout site s live freed) (member : b ∈ live)
    (others : ∀ c ∈ live, c.ptr ≠ b.ptr → c.Keeps s s')
    (moved : reply ≠ 0 → ∀ i < min b.size size, s'.mem (reply + i) = s.mem (b.ptr + i))
    (refused : size ≠ 0 → reply = 0 → s' = s) :
    ArenaStep (.of live freed) s s' reply (.realloc b.ptr size) := by
  refine ⟨layout.spared others, forall_mem_map.mpr fun c other size same given => ?_,
    forall_mem_map.mpr fun c other size same positive null => ?_⟩
  · obtain ⟨here, rfl⟩ := ArenaCall.realloc.inj same
    obtain rfl := inj_on_of_nodup_map layout.nodup_live member other here
    exact moved given
  · obtain ⟨-, rfl⟩ := ArenaCall.realloc.inj same
    rw [refused positive null, Client.after, if_neg positive, if_pos null]
    exact ⟨mem_map_of_mem other, fun _ _ => rfl⟩

def Fares (site : Site) (s : Arena) (c : Client) (call : ArenaCall) : Prop :=
  ∃ reply s' live freed, call.exec site s = some (reply, s') ∧ Layout site s' live freed ∧
    c.after reply call = .of live freed ∧ ArenaStep c s s' reply call

variable {size : Nat}

theorem Layout.serves (layout : Layout site s live freed) (fits : size < 2 ^ 64) (admits : s.Admits site size) :
    memDomainAlloc site s size = some (0, s) ∨ size ≠ 0 ∧ ∃ s' b,
      memDomainAlloc site s size = some (b.ptr, s') ∧ b.size = size ∧
      Layout site s' (b :: live) (freed.filter fun c => c.ptr ≠ b.ptr) ∧ ∀ c ∈ live, c.Keeps s s' := by
  by_cases empty : size = 0
  · exact .inl (if_pos empty)
  · rw [memDomainAlloc, if_neg empty]
    rcases layout.alloc empty fits admits with refused | ⟨s', b, _, given, sized, grown, rfl, keeps⟩
    · exact .inl refused
    · exact .inr ⟨empty, s', b, given, sized, grown, keeps⟩

theorem Layout.call_alloc (layout : Layout site s live freed) {call : ArenaCall}
    (exec : call.exec site s = memDomainAlloc site s size)
    (after : ∀ reply, (reply ≠ 0 → size ≠ 0) →
      (Client.of live freed).after reply call = (Client.of live freed).gain reply size)
    (elsewhere : ∀ b ∈ live, ∀ size, call ≠ .realloc b.ptr size)
    (fits : size < 2 ^ 64) (admits : s.Admits site size) : Fares site s (.of live freed) call := by
  rcases layout.serves fits admits with refused | ⟨positive, s', b, given, rfl, grown, keeps⟩
  · exact ⟨0, s, live, freed, exec.trans refused, layout, after 0 (absurd rfl),
      layout.step (fun b _ _ x _ _ => rfl) elsewhere⟩
  · refine ⟨b.ptr, s', b :: live, _, exec.trans given, grown, ?_,
      layout.step (fun c member _ => keeps c member) elsewhere⟩
    rw [after b.ptr fun _ => positive, Client.of_gain]

theorem Layout.call_calloc {nmemb : Nat} (layout : Layout site s live freed)
    (fits : nmemb * size < 2 ^ 64) (admits : s.Admits site (nmemb * size)) :
    Fares site s (.of live freed) (.calloc nmemb size) := by
  have small : ¬ (size ≠ 0 ∧ nmemb > (2 ^ 64 - 1) / size) := by
    rintro ⟨positive, large⟩
    have least := (Nat.div_lt_iff_lt_mul (pos_of_ne_zero positive)).mp large
    omega
  have total : nmemb * size % 2 ^ 64 = nmemb * size := Nat.mod_eq_of_lt (by omega)
  have calls : ArenaCall.exec site s (.calloc nmemb size) = (memDomainAlloc site s (nmemb * size)).bind fun r =>
      some (r.1, if r.1 ≠ 0 then { r.2 with mem := r.2.mem.zero r.1 (nmemb * size) } else r.2) := by
    rw [ArenaCall.exec, memDomainCalloc, if_neg small, total]
    rfl
  rcases layout.serves fits admits with refused | ⟨-, s', b, given, sized, grown, keeps⟩
  · rw [refused] at calls
    exact ⟨0, s, live, freed, calls, layout, rfl, layout.step (fun b _ _ x _ _ => rfl) (by simp)⟩
  · simp only [given, Option.bind_some, if_pos b.ptr_ne_zero] at calls
    rw [← sized] at calls
    have zeroed : Layout site { s' with mem := s'.mem.zero b.ptr b.size } (b :: live) _ :=
      grown.scribble mem_cons_self fun x outside => Memory.zero_apart outside
    refine ⟨b.ptr, _, b :: live, _, calls, zeroed, ?_, layout.step (fun c member _ => ?_) (by simp)⟩
    · rw [Client.after, ← sized, Client.of_gain]
    · refine (keeps c member).trans fun x above below => Memory.zero_apart ?_
      have apart := (pairwise_cons.mp grown.tiling.apart).1 c (mem_append_left _ member)
      have room := (grown.tiling.sound b mem_cons_self).payload
      unfold Block.Apart Lib.Apart at apart
      unfold Block.ptr
      omega

theorem Layout.call_free (layout : Layout site s live freed) (member : b ∈ live) :
    Fares site s (.of live freed) (.free b.ptr) := by
  obtain ⟨s', done, rest, keeps⟩ := layout.free member
  refine ⟨0, s', _, _, ?_, rest, Client.of_release live freed b, layout.step keeps nofun⟩
  simp [ArenaCall.exec, memDomainFree, b.ptr_ne_zero, done]

theorem Layout.call_write {address : Nat} {byte : BitVec 8} (layout : Layout site s live freed)
    (owns : ∃ p ∈ (Client.of live freed).live, address ∈ p.bytes) :
    Fares site s (.of live freed) (.write address byte) := by
  obtain ⟨_, member, inside⟩ := owns
  obtain ⟨b, placed, rfl⟩ := mem_map.mp member
  have place := (layout.sound_live placed).mem_bytes inside
  refine ⟨0, _, live, freed, rfl, layout.scribble placed fun x outside => ?_, rfl,
    layout.step (fun c other spares x above below => ?_) nofun⟩
  · refine update_of_ne (fun same => ?_) _ _
    obtain ⟨above, below⟩ := inside
    simp only [Block.payload] at above below
    omega
  · refine update_of_ne (fun same => ?_) _ _
    have apart := layout.apart_live placed other fun same => spares (same ▸ inside)
    unfold Block.Apart Lib.Apart at apart
    omega

theorem Layout.call_realloc (layout : Layout site s live freed) (member : b ∈ live)
    (fits : size < 2 ^ 64) (admits : s.Admits site size) :
    Fares site s (.of live freed) (.realloc b.ptr size) := by
  by_cases empty : size = 0
  · obtain ⟨s', done, rest, keeps⟩ := layout.free member
    refine ⟨0, s', _, _, ?_, rest, ?_,
      layout.step_realloc member keeps (absurd rfl) fun positive => absurd empty positive⟩
    · simp [ArenaCall.exec, memDomainRealloc, memDomainFree, b.ptr_ne_zero, empty, done]
    · rw [Client.after, if_pos empty, Client.of_release]
  · rcases layout.realloc member empty fits admits with refused | ⟨s', c, given, rfl, resized, keeps, moved⟩
    · refine ⟨0, s, live, freed, refused, layout, ?_,
        layout.step_realloc member (fun _ _ _ _ _ _ => rfl) (absurd rfl) fun _ _ => rfl⟩
      rw [Client.after, if_neg empty, if_pos rfl]
    · refine ⟨c.ptr, s', _, _, given, resized, ?_, layout.step_realloc member keeps (fun _ => moved)
        fun _ null => absurd null c.ptr_ne_zero⟩
      rw [Client.after, if_neg empty, if_neg c.ptr_ne_zero, Client.of_gain, Client.of_release]

theorem Layout.call {call : ArenaCall} (layout : Layout site s live freed) (owns : (Client.of live freed).Owns call)
    (fits : call.request < 2 ^ 64) (admits : s.Admits site call.request) : Fares site s (.of live freed) call := by
  cases call with
  | alloc size => exact layout.call_alloc rfl (fun _ _ => rfl) nofun fits admits
  | calloc nmemb size => exact layout.call_calloc fits admits
  | realloc ptr size =>
    rcases Client.of_holds owns with rfl | ⟨b, member, rfl⟩
    · have plain : memDomainRealloc site s 0 size = memDomainAlloc site s size := if_pos rfl
      refine layout.call_alloc plain (fun reply given => ?_) (fun b _ _ same => ?_) fits admits
      · by_cases null : reply = 0
        · simp [Client.after, Client.gain, Client.release, null]
        · simp [Client.after, Client.release, given null, null]
      · exact b.ptr_ne_zero (ArenaCall.realloc.inj same).1.symm
    · exact layout.call_realloc member fits admits
  | free ptr =>
    rcases Client.of_holds owns with rfl | ⟨b, member, rfl⟩
    · exact ⟨0, s, live, freed, rfl, layout, rfl, layout.step (fun _ _ _ _ _ _ => rfl) nofun⟩
    · exact layout.call_free member
  | write address byte => exact layout.call_write owns

theorem Client.Legal.fits {c : Client} {call : ArenaCall} (legal : c.Legal call) : call.request < 2 ^ 64 := by
  have bound := legal.bound
  omega

def Arena.AdmitsCall (site : Site) (s : Arena) (call : ArenaCall) : Prop := s.Admits site call.request

theorem ArenaRun.layout {c : Client} (run : ArenaRun (Arena.AdmitsCall site) site s c) :
    ∃ live freed, Layout site s live freed ∧ c = .of live freed := by
  induction run with
  | start mem => exact ⟨[], [], .start site mem, rfl⟩
  | call run legal admits returns ih =>
    obtain ⟨live, freed, layout, rfl⟩ := ih
    obtain ⟨reply, s', live, freed, executed, next, after, -⟩ := layout.call legal.owns legal.fits admits
    obtain ⟨rfl, rfl⟩ := Prod.mk.inj (Option.some.inj (returns.symm.trans executed))
    exact ⟨live, freed, next, after⟩

/-- As long as `align_up` loses nothing of what is asked for. -/
theorem arena_safe {site : Site} {s : Arena} {c : Client} (run : ArenaRun (Arena.AdmitsCall site) site s c) :
    ArenaSound site s c ∧ ∀ call, c.Legal call → s.AdmitsCall site call →
      ∃ reply s', call.exec site s = some (reply, s') ∧ ArenaStep c s s' reply call := by
  obtain ⟨live, freed, layout, rfl⟩ := run.layout
  refine ⟨layout.arenaSound, fun call legal admits => ?_⟩
  obtain ⟨reply, s', _, _, executed, -, -, step⟩ := layout.call legal.owns legal.fits admits
  exact ⟨reply, s', executed, step⟩

def kernelSite : Site := ⟨.kernel, 0x200000, by decide, by decide, by decide⟩

theorem arena_safe_reused : ∃ s c, c.live = [(0x200008, 8), (0x200020, 24)] ∧ ArenaSound kernelSite s c := by
  have start : ArenaRun (Arena.AdmitsCall kernelSite) kernelSite _ _ := .start fun _ => 0
  have first : Client.Legal ⟨[], []⟩ (.alloc 16) := ⟨trivial, by decide⟩
  have run := start.call first (.inl (by decide)) rfl
  have second : Client.Legal ⟨[(0x200008, 16)], []⟩ (.alloc 24) := ⟨trivial, by decide⟩
  have run := run.call second (.inl (by decide)) rfl
  have third : Client.Legal ⟨[(0x200020, 24), (0x200008, 16)], []⟩ (.free 0x200008) :=
    ⟨.inr ⟨(0x200008, 16), by decide, rfl⟩, by decide⟩
  have run := run.call third (.inl (by decide)) rfl
  have fourth : Client.Legal ⟨[(0x200020, 24)], [0x200008]⟩ (.alloc 8) := ⟨trivial, by decide⟩
  have run := run.call fourth (.inl (by decide)) rfl
  exact ⟨_, _, rfl, (arena_safe run).1⟩

theorem arena_overcommits : ∃ s c, ArenaRun (fun _ _ => True) kernelSite s c ∧
    c.live = [(0x200008, 2 ^ 32)] ∧ s.bump = 8 ∧ ¬ ArenaSound kernelSite s c := by
  have legal : Client.Legal ⟨[], []⟩ (.alloc (2 ^ 32)) := ⟨trivial, by decide⟩
  have start : ArenaRun (fun _ _ => True) kernelSite _ _ := .start fun _ => 0
  have run := start.call legal trivial rfl
  refine ⟨_, _, run, rfl, rfl, fun sound => ?_⟩
  have inside := sound.inside (0x200008, 2 ^ 32) mem_cons_self
  have last : (0x200008 : Nat) < 0x200000 + 8 := (inside ⟨le_rfl, by decide⟩).2
  exact absurd last (by decide)

end Flinstone.Mm
