import Mathlib.Init

/-! # States between calls -/

namespace Flinstone.Lib

variable {σ C : Type*} {returns : σ → C → σ → Prop} {allowed : σ → C → Prop} {first : σ}

/-- The states after calls that were each `allowed` in the state before. -/
inductive Reached (returns : σ → C → σ → Prop) (allowed : σ → C → Prop) (first : σ) : σ → Prop where
  | start : Reached returns allowed first first
  | call {s s' : σ} (c : C) (reached : Reached returns allowed first s) (ok : allowed s c) (returned : returns s c s') :
      Reached returns allowed first s'

theorem Reached.invariant {I : σ → Prop} (holds : I first)
    (kept : ∀ s c s', I s → allowed s c → returns s c s' → I s') {s : σ} (reached : Reached returns allowed first s) :
    I s := by
  induction reached with
  | start => exact holds
  | call c _ ok returned ih => exact kept _ c _ ih ok returned

def runCalls (run : C → σ → Option σ) : List C → σ → Option σ
  | [], s => some s
  | c :: rest, s => run c s >>= runCalls run rest

theorem Reached.runCalls {run : C → σ → Option σ} (calls : List C)
    (ok : ∀ c ∈ calls, ∀ s s', run c s = some s' → allowed s c ∧ returns s c s') {s s' : σ}
    (reached : Reached returns allowed first s) (returned : runCalls run calls s = some s') :
    Reached returns allowed first s' := by
  induction calls generalizing s with
  | nil => exact Option.some.inj returned ▸ reached
  | cons c rest ih =>
    obtain ⟨ok_here, ok_rest⟩ := List.forall_mem_cons.mp ok
    obtain ⟨next, stepped, returned⟩ := Option.bind_eq_some_iff.mp returned
    obtain ⟨legal, stepped⟩ := ok_here s next stepped
    exact ih ok_rest (reached.call c legal stepped) returned

end Flinstone.Lib
