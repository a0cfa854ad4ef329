import Flinstone.Heap.Machine
import Flinstone.Lib.Segment
import Flinstone.Lib.Tiling
import Mathlib.Data.List.Nodup
import Mathlib.Data.List.Pairwise
import Mathlib.Data.List.Perm.Subperm

/-! # Blocks and the free list -/

namespace Flinstone.Heap
open Flinstone.Lib List

section
variable {mem : Memory} {p q v : Nat}

theorem load_store_ne (aligned : p % 8 = 0) (others : q % 8 = 0) (ne : q ≠ p) :
    (mem.store 8 p v).load 8 q = mem.load 8 q := Memory.load_store_apart (by omega)

theorem load_store_self (fits : v < 2 ^ 64) : (mem.store 8 p v).load 8 p = v :=
  Memory.load_store (show v < 256 ^ 8 by omega)

theorem andMinus16_eq (fits : v < 2 ^ 64) : andMinus16 v = v / 16 * 16 := by
  have mask : 2 ^ 64 - 16 = (2 ^ 60 - 1) * 2 ^ 4 := by decide
  apply Nat.eq_of_testBit_eq
  intro i
  have low : (16 : Nat) = 2 ^ 4 := rfl
  rw [andMinus16, mask, Nat.testBit_and, Nat.testBit_mul_two_pow, low, Nat.testBit_mul_two_pow,
    Nat.testBit_div_two_pow, Nat.testBit_two_pow_sub_one]
  by_cases above : 4 ≤ i
  · by_cases below : i < 64
    · grind
    · have wide : 2 ^ 64 ≤ 2 ^ i := Nat.pow_le_pow_right (by decide) (by omega)
      have high : v.testBit i = false := Nat.testBit_lt_two_pow (fits.trans_le wide)
      grind
  · grind

theorem or_flagFree (rounded : v % 16 = 0) : v ||| flagFree = v + 1 := by
  obtain ⟨k, rfl⟩ := Nat.dvd_of_mod_eq_zero rounded
  have low : (16 : Nat) = 2 ^ 4 := rfl
  rw [flagFree, low, Nat.two_pow_add_eq_or_of_lt (by decide)]

end

section
variable {α : Type} {x y : α} {left middle right : List α}

theorem mem_middle : x ∈ left ++ (middle ++ right) ↔ x ∈ middle ∨ x ∈ left ++ right := by
  simp only [mem_append]
  exact or_left_comm

theorem mem_middle_cons : x ∈ left ++ y :: right ↔ x = y ∨ x ∈ left ++ right := by
  rw [perm_middle.mem_iff, mem_cons]

end

def link (mem : Memory) (h : Nat) : Nat := mem.load 8 (h + 8)

structure Block where
  hdr : Nat
  size : Nat
  held : Option Nat

namespace Block

def extent (b : Block) : Nat := hdrSize + b.size

def flag (b : Block) : Nat := if b.held = none then 1 else 0

structure Sound (mem : Memory) (b : Block) : Prop where
  header : mem.load 8 b.hdr = b.size + b.flag
  aligned : b.hdr % 16 = 0
  rounded : b.size % 16 = 0
  payload : 16 ≤ b.size
  request : ∀ n, b.held = some n → n ≤ b.size

abbrev Apart (b c : Block) : Prop := Lib.Apart hdr extent b c

abbrev Keeps (mem mem' : Memory) (b : Block) : Prop := Lib.Keeps hdr extent mem mem' b

variable {mem mem' : Memory} {b c : Block}

theorem Apart.keeps (apart : b.Apart c) {p v : Nat} (above : c.hdr ≤ p) (below : p + 8 ≤ c.hdr + c.extent) :
    b.Keeps mem (mem.store 8 p v) := by
  intro x inside behind
  unfold Block.Apart Lib.Apart at apart
  exact Memory.store_apart (by omega)

theorem Keeps.header (keeps : b.Keeps mem mem') : mem'.load 8 b.hdr = mem.load 8 b.hdr := by
  refine Memory.load_congr fun x above below => keeps x above ?_
  unfold extent hdrSize
  omega

theorem Keeps.link (keeps : b.Keeps mem mem') : link mem' b.hdr = link mem b.hdr := by
  refine Memory.load_congr fun x above below => keeps x (by omega) ?_
  unfold extent hdrSize
  omega

theorem flag_le (b : Block) : b.flag ≤ 1 := by
  unfold flag
  split <;> decide

theorem Sound.congr (sound : b.Sound mem) (same : mem'.load 8 b.hdr = mem.load 8 b.hdr) : b.Sound mem' :=
  { sound with header := same.trans sound.header }

end Block

structure Layout (start : Nat) (mem : Memory) (head top : Nat) (blocks : List Block) (free : List Nat) : Prop where
  nonnull : 0 < start
  fits : top < 2 ^ 64
  aligned : top % 16 = 0
  tiles : Tiles Block.hdr Block.extent start blocks top
  sound : ∀ b ∈ blocks, b.Sound mem
  chain : Segment (link mem) 0 head free 0
  nodup : free.Nodup
  known : ∀ h ∈ free, ∃ b ∈ blocks, b.held = none ∧ b.hdr = h

def unlinked (mem : Memory) (head prev gone : Nat) : Memory × Nat :=
  if prev = 0 then (mem, link mem gone) else (mem.store 8 (prev + 8) (link mem gone), head)

def Complete (blocks : List Block) (free : List Nat) : Prop := ∀ b ∈ blocks, b.held = none → b.hdr ∈ free

namespace Layout
variable {start head top : Nat} {mem mem' : Memory} {blocks left right old new : List Block}
variable {free front back : List Nat} {b c : Block}

theorem apart (layout : Layout start mem head top (left ++ b :: right) free) : ∀ c ∈ left ++ right, c.Apart b := by
  have ordered : (left ++ b :: right).Pairwise Block.Apart := layout.tiles.ordered.imp Or.inl
  have first := (perm_middle.pairwise_iff symm).mp ordered
  exact fun c member => symm ((pairwise_cons.mp first).1 c member)

theorem apart_of_ne (layout : Layout start mem head top blocks free) (first : b ∈ blocks) (second : c ∈ blocks)
    (ne : b ≠ c) : b.Apart c := by
  have ordered : blocks.Pairwise Block.Apart := layout.tiles.ordered.imp Or.inl
  exact ordered.forall first second ne

theorem apart_live (layout : Layout start mem head top blocks free) (first : b ∈ blocks) (second : c ∈ blocks)
    (live : b.held ≠ none) (unheld : c.held = none) : b.Apart c :=
  layout.apart_of_ne first second fun same => live (same ▸ unheld)

theorem hdr_ne (layout : Layout start mem head top (left ++ b :: right) free) (member : c ∈ left ++ right) :
    c.hdr ≠ b.hdr := by
  have apart := layout.apart c member
  unfold Block.Apart Lib.Apart Block.extent hdrSize at apart
  omega

variable {h v n need : Nat}

theorem unlisted (layout : Layout start mem head top blocks (front ++ h :: back)) : h ∉ front ++ back :=
  (nodup_cons.mp (nodup_middle.mp layout.nodup)).1

theorem node (layout : Layout start mem head top blocks free) (member : h ∈ free) :
    0 < h ∧ h % 16 = 0 ∧ h + 32 ≤ top := by
  obtain ⟨b, placed, -, rfl⟩ := layout.known h member
  have start := layout.nonnull
  have within := layout.tiles.within placed
  have sound := layout.sound b placed
  have payload := sound.payload
  unfold Block.extent hdrSize at within
  exact ⟨by omega, sound.aligned, by omega⟩

theorem size_header (layout : Layout start mem head top blocks free) (placed : b ∈ blocks) :
    andMinus16 (mem.load 8 b.hdr) = b.size := by
  have within := layout.tiles.within placed
  have fits := layout.fits
  have flag := b.flag_le
  have rounded := (layout.sound b placed).rounded
  unfold Block.extent hdrSize at within
  rw [(layout.sound b placed).header, andMinus16_eq (by omega)]
  omega

theorem flag_header (layout : Layout start mem head top blocks free) (placed : b ∈ blocks) :
    mem.load 8 b.hdr &&& flagFree = b.flag := by
  have flag := b.flag_le
  have rounded := (layout.sound b placed).rounded
  rw [flagFree, Nat.and_one_is_mod, (layout.sound b placed).header]
  omega

theorem length_lt (layout : Layout start mem head top blocks free) : free.length < addresses := by
  have among : free ⊆ blocks.map Block.hdr := by
    intro h member
    obtain ⟨b, placed, -, rfl⟩ := layout.known h member
    exact mem_map_of_mem placed
  have shorter := (layout.nodup.subperm among).length_le
  have blocks := layout.tiles.length_le fun b => Nat.add_pos_left (by decide) b.size
  have fits := layout.fits
  rw [length_map] at shorter
  unfold addresses
  omega

theorem replace (layout : Layout start mem head top (left ++ (old ++ right)) free)
    (tiles : ∀ i j, Tiles Block.hdr Block.extent i old j → Tiles Block.hdr Block.extent i new j)
    (keeps : ∀ c ∈ left ++ right, c.Keeps mem mem') (sound : ∀ c ∈ new, c.Sound mem')
    (links : ∀ h ∈ free, link mem' h = link mem h)
    (known : ∀ h ∈ free, ∃ c ∈ left ++ (new ++ right), c.held = none ∧ c.hdr = h) :
    Layout start mem' head top (left ++ (new ++ right)) free := by
  refine { layout with tiles := layout.tiles.replace tiles, sound := ?_, chain := layout.chain.congr links, known }
  intro c member
  rcases mem_middle.mp member with member | member
  · exact sound c member
  · exact (layout.sound c (mem_middle.mpr (.inr member))).congr (keeps c member).header

theorem replace_unlisted (layout : Layout start mem head top (left ++ (old ++ right)) free)
    (tiles : ∀ i j, Tiles Block.hdr Block.extent i old j → Tiles Block.hdr Block.extent i new j)
    (keeps : ∀ c ∈ left ++ right, c.Keeps mem mem') (sound : ∀ c ∈ new, c.Sound mem')
    (unlisted : ∀ c ∈ old, c.hdr ∉ free) : Layout start mem' head top (left ++ (new ++ right)) free := by
  have elsewhere : ∀ h ∈ free, ∃ c ∈ left ++ right, c.held = none ∧ c.hdr = h := by
    intro h member
    obtain ⟨c, placed, unheld, rfl⟩ := layout.known h member
    exact ⟨c, (mem_middle.mp placed).resolve_left fun gone => unlisted c gone member, unheld, rfl⟩
  refine layout.replace tiles keeps sound (fun h member => ?_) fun h member => ?_
  · obtain ⟨c, placed, -, rfl⟩ := elsewhere h member
    exact (keeps c placed).link
  · obtain ⟨c, placed, node⟩ := elsewhere h member
    exact ⟨c, mem_middle.mpr (.inr placed), node⟩

theorem unlink {gone head' : Nat} (layout : Layout start mem head top blocks (front ++ gone :: back))
    (stores : unlinked mem head (front.getLastD 0) gone = (mem', head')) :
    Layout start mem' head' top blocks (front ++ back) ∧
      (∀ p, p % 16 = 0 → mem'.load 8 p = mem.load 8 p) ∧ ∀ c ∈ blocks, c.held ≠ none → c.Keeps mem mem' := by
  have nodup := (nodup_cons.mp (nodup_middle.mp layout.nodup)).2
  have remain : ∀ h ∈ front ++ back, h ∈ front ++ gone :: back := fun h member => mem_middle_cons.mpr (.inr member)
  have known := fun h member => layout.known h (remain h member)
  unfold unlinked at stores
  rcases eq_nil_or_concat' front with rfl | ⟨front, before, rfl⟩
  · cases stores
    obtain ⟨rfl, -, chain⟩ := layout.chain
    exact ⟨⟨layout.nonnull, layout.fits, layout.aligned, layout.tiles, layout.sound, chain, nodup,
      known⟩, fun _ _ => rfl, fun _ _ _ _ _ _ => rfl⟩
  · have member : before ∈ front ++ [before] ++ gone :: back := by simp
    obtain ⟨positive, aligned, -⟩ := layout.node member
    rw [getLastD_concat, if_neg (ne_of_gt positive)] at stores
    cases stores
    have headers : ∀ p, p % 16 = 0 → (mem.store 8 (before + 8) (link mem gone)).load 8 p = mem.load 8 p :=
      fun p even => load_store_ne (by omega) (by omega) (by omega)
    refine ⟨{ layout with sound := ?_, chain := ?_, nodup, known }, headers, ?_⟩
    · intro c placed
      exact (layout.sound c placed).congr (headers c.hdr (layout.sound c placed).aligned)
    · have chain := layout.chain
      rw [append_assoc] at chain ⊢
      refine chain.unlink (load_store_self Memory.load_lt) fun cell among => ?_
      rw [append_assoc] at nodup remain
      have other : cell ≠ before := fun same => (nodup_cons.mp (nodup_middle.mp nodup)).1 (same ▸ among)
      have even := (layout.node (remain cell (mem_middle_cons.mpr (.inr among)))).2.1
      exact load_store_ne (by omega) (by omega) (by omega)
    · intro c placed live
      obtain ⟨p, node, unheld, rfl⟩ := layout.known before member
      refine (layout.apart_live placed node live unheld).keeps (by omega) ?_
      unfold Block.extent hdrSize
      omega

theorem push (layout : Layout start mem head top blocks free) (placed : b ∈ blocks) (unheld : b.held = none)
    (unlisted : b.hdr ∉ free) :
    Layout start (mem.store 8 (b.hdr + 8) head) b.hdr top blocks (b.hdr :: free) ∧
      ∀ c ∈ blocks, c.held ≠ none → c.Keeps mem (mem.store 8 (b.hdr + 8) head) := by
  have aligned := (layout.sound b placed).aligned
  have payload := (layout.sound b placed).payload
  have within := layout.tiles.within placed
  have positive := layout.nonnull
  have fits : head < 2 ^ 64 := by
    have chain := layout.chain
    have top := layout.fits
    cases free with
    | nil => exact (show head = 0 from chain) ▸ Nat.two_pow_pos 64
    | cons h rest =>
      have node := layout.node (mem_cons_self : h ∈ h :: rest)
      have here : head = h := chain.1
      omega
  have nodup := nodup_cons.mpr ⟨unlisted, layout.nodup⟩
  refine ⟨{ layout with sound := ?_, chain := ⟨rfl, by omega, ?_⟩, nodup, known := ?_ }, ?_⟩
  · intro c member
    have even := (layout.sound c member).aligned
    exact (layout.sound c member).congr (load_store_ne (by omega) (by omega) (by omega))
  · have here : link (mem.store 8 (b.hdr + 8) head) b.hdr = head := load_store_self fits
    rw [here]
    refine layout.chain.congr fun h member => load_store_ne (by omega) ?_ ?_
    · have node := layout.node member
      omega
    · have other : h ≠ b.hdr := fun same => unlisted (same ▸ member)
      omega
  · exact forall_mem_cons.mpr ⟨⟨b, placed, unheld, rfl⟩, layout.known⟩
  · intro c member live
    refine (layout.apart_live member placed live unheld).keeps (by omega) ?_
    unfold Block.extent hdrSize
    omega

theorem relabel (layout : Layout start mem head top (left ++ b :: right) free) (held : Option Nat)
    (unlisted : b.hdr ∉ free) (enough : ∀ n, held = some n → n ≤ b.size)
    (header : v = b.size + (Block.mk b.hdr b.size held).flag) :
    Layout start (mem.store 8 b.hdr v) head top (left ++ ⟨b.hdr, b.size, held⟩ :: right) free ∧
      ∀ c ∈ left ++ right, c.Keeps mem (mem.store 8 b.hdr v) := by
  have sound := layout.sound b (by simp)
  have within := layout.tiles.within (show b ∈ left ++ b :: right by simp)
  have fits := layout.fits
  have keeps : ∀ c ∈ left ++ right, c.Keeps mem (mem.store 8 b.hdr v) := by
    intro c member
    refine (layout.apart c member).keeps le_rfl ?_
    unfold Block.extent hdrSize
    omega
  have small : v < 2 ^ 64 := by
    have flag := (Block.mk b.hdr b.size held).flag_le
    unfold Block.extent hdrSize at within
    omega
  have tiles : ∀ i j, Tiles Block.hdr Block.extent i [b] j →
      Tiles Block.hdr Block.extent i [⟨b.hdr, b.size, held⟩] j := fun i j tiles => tiles
  have new : ∀ c ∈ [Block.mk b.hdr b.size held], c.Sound (mem.store 8 b.hdr v) :=
    forall_mem_singleton.mpr
      ⟨(load_store_self small).trans header, sound.aligned, sound.rounded, sound.payload, enough⟩
  have before : Layout start mem head top (left ++ ([b] ++ right)) free := layout
  exact ⟨before.replace_unlisted tiles keeps new (by simpa using unlisted), keeps⟩

theorem split {rest : Nat} (layout : Layout start mem head top (left ++ b :: right) free)
    (unlisted : b.hdr ∉ free) (parts : b.size = need + (16 + rest)) (enough : n ≤ need) (rounded : need % 16 = 0)
    (payload : 16 ≤ need) (remainder : 16 ≤ rest) {d : Nat} (behind : d = b.hdr + (16 + need)) :
    Layout start (((mem.store 8 d (rest + 1)).store 8 b.hdr need).store 8 (d + 8) head) d top
        (left ++ ⟨b.hdr, need, some n⟩ :: ⟨d, rest, none⟩ :: right) (d :: free) ∧
      ∀ c ∈ left ++ right, c.held ≠ none →
        c.Keeps mem (((mem.store 8 d (rest + 1)).store 8 b.hdr need).store 8 (d + 8) head) := by
  have sound := layout.sound b (by simp)
  have within := layout.tiles.within (show b ∈ left ++ b :: right by simp)
  have fits := layout.fits
  have aligned := sound.aligned
  have whole := sound.rounded
  have extent : b.extent = 16 + need + (16 + rest) := by rw [Block.extent, parts, hdrSize, add_assoc]
  have keeps : ∀ c ∈ left ++ right, c.Keeps mem ((mem.store 8 d (rest + 1)).store 8 b.hdr need) := by
    intro c member
    exact ((layout.apart c member).keeps (by omega) (by omega)).trans ((layout.apart c member).keeps le_rfl (by omega))
  have tiles : ∀ i j, Tiles Block.hdr Block.extent i [b] j →
      Tiles Block.hdr Block.extent i [⟨b.hdr, need, some n⟩, ⟨d, rest, none⟩] j := by
    rintro i j ⟨rfl, ends⟩
    exact ⟨rfl, behind, by rw [← ends, extent, ← add_assoc]; rfl⟩
  have new : ∀ c ∈ [Block.mk b.hdr need (some n), Block.mk d rest none],
      c.Sound ((mem.store 8 d (rest + 1)).store 8 b.hdr need) := by
    refine forall_mem_cons.mpr ⟨⟨load_store_self (by omega), aligned, rounded, payload, ?_⟩,
      forall_mem_singleton.mpr ⟨?_, by dsimp only; omega, by dsimp only; omega, remainder, nofun⟩⟩
    · rintro _ ⟨⟩
      exact enough
    · exact (load_store_ne (by omega) (by dsimp only; omega) (by dsimp only; omega)).trans (load_store_self (by omega))
  have before : Layout start mem head top (left ++ ([b] ++ right)) free := layout
  have cut := before.replace_unlisted tiles keeps new (by simpa using unlisted)
  have fresh : d ∉ free := by
    intro member
    obtain ⟨c, placed, -, same⟩ := layout.known d member
    rcases mem_middle_cons.mp placed with rfl | other
    · omega
    · have apart := layout.apart c other
      unfold Block.Apart Lib.Apart at apart
      omega
  obtain ⟨pushed, kept⟩ := cut.push (b := ⟨d, rest, none⟩) (by simp) rfl fresh
  exact ⟨pushed, fun c member live => (keeps c member).trans (kept c (mem_middle.mpr (.inr member)) live)⟩

theorem release (layout : Layout start mem head top (left ++ b :: right) free) (live : b.held ≠ none) :
    Layout start ((mem.store 8 b.hdr (b.size + 1)).store 8 (b.hdr + 8) head) b.hdr top
        (left ++ ⟨b.hdr, b.size, none⟩ :: right) (b.hdr :: free) ∧
      ∀ c ∈ left ++ right, c.held ≠ none → c.Keeps mem ((mem.store 8 b.hdr (b.size + 1)).store 8 (b.hdr + 8) head) := by
  have unlisted : b.hdr ∉ free := by
    intro member
    obtain ⟨c, placed, unheld, same⟩ := layout.known b.hdr member
    rcases mem_middle_cons.mp placed with rfl | other
    · exact live unheld
    · exact layout.hdr_ne other same
  obtain ⟨marked, keeps⟩ := layout.relabel none (v := b.size + 1) unlisted nofun rfl
  obtain ⟨pushed, kept⟩ := marked.push (b := ⟨b.hdr, b.size, none⟩) (by simp) rfl unlisted
  exact ⟨pushed, fun c member live => (keeps c member).trans (kept c (mem_middle_cons.mpr (.inr member)) live)⟩

theorem absorb (layout : Layout start mem head top (left ++ b :: c :: right) free)
    (unlisted : c.hdr ∉ free) (header : v = b.size + (16 + c.size) + 1) :
    Layout start (mem.store 8 b.hdr v) head top (left ++ ⟨b.hdr, b.size + (16 + c.size), none⟩ :: right) free ∧
      ∀ e ∈ left ++ right, e.Keeps mem (mem.store 8 b.hdr v) := by
  have sound := layout.sound b (by simp)
  have other := layout.sound c (by simp)
  have within := layout.tiles.within (show c ∈ left ++ b :: c :: right by simp)
  have fits := layout.fits
  have aligned := sound.aligned
  have tiles : ∀ i j, Tiles Block.hdr Block.extent i [b, c] j →
      Tiles Block.hdr Block.extent i [⟨b.hdr, b.size + (16 + c.size), none⟩] j := by
    rintro i j ⟨here, -, ends⟩
    refine ⟨here, ?_⟩
    change i + (16 + b.size) + (16 + c.size) = j at ends
    change i + (16 + (b.size + (16 + c.size))) = j
    omega
  obtain ⟨i, -, here, next, -⟩ := tiles_append.mp layout.tiles
  have keeps : ∀ e ∈ left ++ right, e.Keeps mem (mem.store 8 b.hdr v) := by
    intro e member
    refine (layout.apart e (mem_middle_cons.mpr (.inr member))).keeps le_rfl ?_
    unfold Block.extent hdrSize
    omega
  have small : v < 2 ^ 64 := by
    unfold Block.extent hdrSize at *
    omega
  have new : ∀ e ∈ [Block.mk b.hdr (b.size + (16 + c.size)) none], e.Sound (mem.store 8 b.hdr v) := by
    have first := sound.rounded
    have second := other.rounded
    exact forall_mem_singleton.mpr ⟨(load_store_self small).trans header, aligned, by dsimp only; omega,
      by dsimp only; omega, nofun⟩
  have before : Layout start mem head top (left ++ ([b, c] ++ right)) free := layout
  refine ⟨before.replace tiles keeps new (fun h member => ?_) fun h member => ?_, keeps⟩
  · have node := layout.node member
    exact load_store_ne (by omega) (by omega) (by omega)
  · obtain ⟨e, placed, free, rfl⟩ := layout.known h member
    -- `b` itself is on the list; the block that it becomes has the same address
    by_cases same : e = b
    · exact ⟨⟨b.hdr, b.size + (16 + c.size), none⟩, by simp, rfl, same ▸ rfl⟩
    · have gone : e ≠ c := fun same => unlisted (same ▸ member)
      have other : e ∈ left ++ right :=
        (mem_middle_cons.mp ((mem_middle_cons.mp placed).resolve_left same)).resolve_left gone
      exact ⟨e, mem_middle.mpr (.inr other), free, rfl⟩

theorem grow (layout : Layout start mem head top blocks free) (fits : top + (16 + need) < 2 ^ 64)
    (rounded : need % 16 = 0) (payload : 16 ≤ need) (enough : n ≤ need) :
    Layout start (mem.store 8 top need) head (top + (16 + need)) (blocks ++ [⟨top, need, some n⟩]) free ∧
      ∀ c ∈ blocks, c.Keeps mem (mem.store 8 top need) := by
  have aligned := layout.aligned
  have keeps : ∀ c ∈ blocks, c.Keeps mem (mem.store 8 top need) := by
    intro c member x above below
    have within := layout.tiles.within member
    exact Memory.store_apart (by omega)
  have links : ∀ h ∈ free, link (mem.store 8 top need) h = link mem h := by
    intro h member
    have node := layout.node member
    exact load_store_ne (by omega) (by omega) (by omega)
  refine ⟨⟨layout.nonnull, fits, by omega, tiles_append.mpr ⟨top, layout.tiles, rfl, rfl⟩, ?_, layout.chain.congr links,
    layout.nodup, fun h member => ?_⟩, keeps⟩
  · refine forall_mem_append.mpr ⟨fun c member => (layout.sound c member).congr (keeps c member).header, ?_⟩
    refine forall_mem_singleton.mpr ⟨load_store_self (by omega), aligned, rounded, payload, ?_⟩
    rintro _ ⟨⟩
    exact enough
  · obtain ⟨b, placed, node⟩ := layout.known h member
    exact ⟨b, mem_append_left _ placed, node⟩

theorem complete_others (layout : Layout start mem head top (left ++ b :: right) (front ++ b.hdr :: back))
    (complete : Complete (left ++ b :: right) (front ++ b.hdr :: back)) : Complete (left ++ right) (front ++ back) := by
  intro c member unheld
  have listed := complete c (mem_middle_cons.mpr (.inr member)) unheld
  exact (mem_middle_cons.mp listed).resolve_left (layout.hdr_ne member)

end Layout

end Flinstone.Heap
