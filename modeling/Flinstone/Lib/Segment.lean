import Mathlib.Data.List.Basic

/-! # Singly linked lists -/

namespace Flinstone.Lib

variable {ι : Type*} {next next' : ι → ι} {null p q : ι} {cells front back : List ι}

def Segment (next : ι → ι) (null : ι) : ι → List ι → ι → Prop
  | p, [], q => p = q
  | p, cell :: rest, q => p = cell ∧ cell ≠ null ∧ Segment next null (next cell) rest q

theorem segment_append : Segment next null p (front ++ back) q ↔
    ∃ r, Segment next null p front r ∧ Segment next null r back q := by
  induction front generalizing p with
  | nil => exact ⟨fun segment => ⟨p, rfl, segment⟩, fun ⟨_, same, segment⟩ => same ▸ segment⟩
  | cons cell rest ih =>
    constructor
    · rintro ⟨here, nonnull, segment⟩
      obtain ⟨r, before, after⟩ := ih.mp segment
      exact ⟨r, ⟨here, nonnull, before⟩, after⟩
    · rintro ⟨r, ⟨here, nonnull, before⟩, after⟩
      exact ⟨here, nonnull, ih.mpr ⟨r, before, after⟩⟩

theorem Segment.congr (segment : Segment next null p cells q) (same : ∀ cell ∈ cells, next' cell = next cell) :
    Segment next' null p cells q := by
  induction cells generalizing p with
  | nil => exact segment
  | cons cell rest ih =>
    obtain ⟨here, nonnull, segment⟩ := segment
    obtain ⟨first, others⟩ := List.forall_mem_cons.mp same
    exact ⟨here, nonnull, ih (first ▸ segment) others⟩

theorem Segment.unique {others : List ι} (first : Segment next null p cells null)
    (second : Segment next null p others null) : cells = others := by
  induction cells generalizing p others with
  | nil =>
    obtain rfl : p = null := first
    cases others with
    | nil => rfl
    | cons cell rest => exact absurd second.1.symm second.2.1
  | cons cell rest ih =>
    obtain ⟨rfl, nonnull, first⟩ := first
    cases others with
    | nil => exact absurd second nonnull
    | cons cell rest =>
      obtain ⟨rfl, -, second⟩ := second
      rw [ih first second]

theorem Segment.unlink {before : ι} {gone : ι}
    (segment : Segment next null p (front ++ before :: gone :: back) q) (redirected : next' before = next gone)
    (same : ∀ cell ∈ front ++ back, next' cell = next cell) : Segment next' null p (front ++ before :: back) q := by
  obtain ⟨r, start, here, nonnull, -, -, rest⟩ := segment_append.mp segment
  obtain ⟨left, right⟩ := List.forall_mem_append.mp same
  exact segment_append.mpr ⟨r, start.congr left, here, nonnull, redirected ▸ rest.congr right⟩

end Flinstone.Lib
