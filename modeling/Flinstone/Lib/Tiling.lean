import Mathlib.Data.List.Basic

/-! # Intervals cut into blocks -/

namespace Flinstone.Lib
open List

variable {β : Type*} {place extent : β → Nat} {first top : Nat} {blocks front back old new : List β} {b : β}

def Tiles (place extent : β → Nat) : Nat → List β → Nat → Prop
  | first, [], top => first = top
  | first, b :: rest, top => place b = first ∧ Tiles place extent (first + extent b) rest top

theorem tiles_append : Tiles place extent first (front ++ back) top ↔
    ∃ middle, Tiles place extent first front middle ∧ Tiles place extent middle back top := by
  induction front generalizing first with
  | nil => exact ⟨fun tiles => ⟨first, rfl, tiles⟩, fun ⟨_, same, tiles⟩ => same ▸ tiles⟩
  | cons b rest ih =>
    constructor
    · rintro ⟨here, tiles⟩
      obtain ⟨middle, before, after⟩ := ih.mp tiles
      exact ⟨middle, ⟨here, before⟩, after⟩
    · rintro ⟨middle, ⟨here, before⟩, after⟩
      exact ⟨here, ih.mpr ⟨middle, before, after⟩⟩

def Apart (place extent : β → Nat) (b c : β) : Prop := place b + extent b ≤ place c ∨ place c + extent c ≤ place b

instance : Std.Symm (Apart place extent) := ⟨fun _ _ => Or.symm⟩

def Keeps {α : Type*} (place extent : β → Nat) (mem mem' : Nat → α) (b : β) : Prop :=
  ∀ x, place b ≤ x → x < place b + extent b → mem' x = mem x

theorem Keeps.trans {α : Type*} {mem mem' mem'' : Nat → α} (first : Keeps place extent mem mem' b)
    (second : Keeps place extent mem' mem'' b) : Keeps place extent mem mem'' b :=
  fun x above below => (second x above below).trans (first x above below)

theorem Tiles.le (tiles : Tiles place extent first blocks top) : first ≤ top := by
  induction blocks generalizing first with
  | nil => exact Nat.le_of_eq tiles
  | cons b rest ih => exact Nat.le_trans (Nat.le_add_right _ _) (ih tiles.2)

theorem Tiles.within (tiles : Tiles place extent first blocks top) (member : b ∈ blocks) :
    first ≤ place b ∧ place b + extent b ≤ top := by
  obtain ⟨front, back, rfl⟩ := append_of_mem member
  obtain ⟨middle, before, here, after⟩ := tiles_append.mp tiles
  exact ⟨here ▸ before.le, here ▸ after.le⟩

theorem Tiles.ordered (tiles : Tiles place extent first blocks top) :
    blocks.Pairwise fun b c => place b + extent b ≤ place c := by
  induction blocks generalizing first with
  | nil => exact .nil
  | cons b rest ih =>
    obtain ⟨here, tiles⟩ := tiles
    exact pairwise_cons.mpr ⟨fun c member => here ▸ (tiles.within member).1, ih tiles⟩

theorem Tiles.length_le (tiles : Tiles place extent first blocks top) (positive : ∀ b, 0 < extent b) :
    first + blocks.length ≤ top := by
  induction blocks generalizing first with
  | nil => exact Nat.le_of_eq tiles
  | cons b rest ih =>
    have shorter := ih tiles.2
    have here := positive b
    rw [length_cons]
    omega

theorem Tiles.map {γ : Type*} {place' extent' : γ → Nat} {f : β → γ} (tiles : Tiles place extent first blocks top)
    (same : ∀ b ∈ blocks, place' (f b) = place b ∧ extent' (f b) = extent b) :
    Tiles place' extent' first (blocks.map f) top := by
  induction blocks generalizing first with
  | nil => exact tiles
  | cons b rest ih =>
    obtain ⟨here, tiles⟩ := tiles
    obtain ⟨⟨placed, wide⟩, others⟩ := forall_mem_cons.mp same
    exact ⟨placed.trans here, wide ▸ ih tiles others⟩

theorem Tiles.next (tiles : Tiles place extent first (front ++ b :: back) top) (inside : place b + extent b < top) :
    ∃ c rest, back = c :: rest ∧ place c = place b + extent b := by
  obtain ⟨middle, -, rfl, after⟩ := tiles_append.mp tiles
  cases back with
  | nil => exact absurd after (Nat.ne_of_lt inside)
  | cons c rest => exact ⟨c, rest, rfl, after.1⟩

theorem Tiles.replace (tiles : Tiles place extent first (front ++ (old ++ back)) top)
    (same : ∀ i j, Tiles place extent i old j → Tiles place extent i new j) :
    Tiles place extent first (front ++ (new ++ back)) top := by
  obtain ⟨start, before, after⟩ := tiles_append.mp tiles
  obtain ⟨finish, here, after⟩ := tiles_append.mp after
  exact tiles_append.mpr ⟨start, before, tiles_append.mpr ⟨finish, same start finish here, after⟩⟩

end Flinstone.Lib
