import Mathlib.Logic.Relation
import Mathlib.Order.Filter.AtTopBot.Basic

/-! # Runs under a fair scheduler -/

namespace Flinstone.Lib

structure System (σ T : Type) where
  step : T → σ → σ → Prop
  env : σ → σ → Prop

namespace System
variable {σ T : Type}

inductive Moves (sys : System σ T) : Option T → σ → σ → Prop
  | step {t : T} {s s' : σ} (steps : sys.step t s s') : Moves sys (some t) s s'
  | env {s s' : σ} (changes : sys.env s s') : Moves sys none s s'
  | pause (s : σ) : Moves sys none s s

def Reaches (sys : System σ T) : σ → σ → Prop := Relation.ReflTransGen fun s s' => ∃ label, sys.Moves label s s'

def Enabled (sys : System σ T) (t : T) (s : σ) : Prop := ∃ s', sys.step t s s'

structure Run (sys : System σ T) where
  state : Nat → σ
  label : Nat → Option T
  moves : ∀ k, sys.Moves (label k) (state k) (state (k + 1))

variable {sys : System σ T}

theorem Reaches.keeps {P : σ → Prop} (keeps : ∀ label s s', P s → sys.Moves label s s' → P s') {s s' : σ}
    (reaches : sys.Reaches s s') (holds : P s) : P s' := by
  induction reaches with
  | refl => exact holds
  | tail _ move ih => exact keeps _ _ _ ih move.choose_spec

namespace Run

theorem reaches (r : sys.Run) (k : Nat) : sys.Reaches (r.state 0) (r.state k) := by
  induction k with
  | zero => exact .refl
  | succ k ih => exact ih.tail ⟨_, r.moves k⟩

def Fair (r : sys.Run) : Prop := ∀ t k, (∀ k', ∃ j ≥ k', sys.Enabled t (r.state j)) → ∃ j ≥ k, r.label j = some t

def LeadsTo (r : sys.Run) (P Q : σ → Prop) : Prop := ∀ k, P (r.state k) → ∃ j ≥ k, Q (r.state j)

theorem forever (r : sys.Run) {P : σ → Prop} (stays : ∀ k, P (r.state k) → P (r.state (k + 1))) {k : Nat}
    (holds : P (r.state k)) : ∀ᶠ j in Filter.atTop, P (r.state j) := by
  rw [Filter.eventually_atTop]
  refine ⟨k, fun j later => ?_⟩
  induction j, later using Nat.le_induction with
  | base => exact holds
  | succ j _ ih => exact stays j ih

/-- While `P` lasts a rank never grows, and `t` lowers it whenever it acts, again and again. -/
theorem Fair.leadsTo {r : sys.Run} (fair : r.Fair) {P Q : σ → Prop} (t : T) (rank : σ → Nat)
    (stays : ∀ k, P (r.state k) → Q (r.state (k + 1)) ∨ P (r.state (k + 1)) ∧
      rank (r.state (k + 1)) ≤ rank (r.state k) ∧
      (r.label k = some t → rank (r.state (k + 1)) < rank (r.state k)))
    (ready : ∀ k, ∃ j ≥ k, P (r.state j) → sys.Enabled t (r.state j)) : r.LeadsTo P Q := by
  intro k holds
  induction level : rank (r.state k) using Nat.strong_induction_on generalizing k with
  | _ level ih =>
    by_contra never
    have lasts : ∀ j ≥ k, P (r.state j) ∧ rank (r.state j) ≤ rank (r.state k) := by
      intro j later
      induction j, later using Nat.le_induction with
      | base => exact ⟨holds, le_rfl⟩
      | succ j later lasts =>
        rcases stays j lasts.1 with ends | ⟨next, lower, -⟩
        · exact absurd ⟨j + 1, by omega, ends⟩ never
        · exact ⟨next, lower.trans lasts.2⟩
    obtain ⟨j, later, acts⟩ := fair t k fun k' => by
      obtain ⟨j, latest, enabled⟩ := ready (max k k')
      exact ⟨j, (le_max_right k k').trans latest, enabled (lasts j ((le_max_left k k').trans latest)).1⟩
    rcases stays j (lasts j later).1 with ends | ⟨next, -, lower⟩
    · exact never ⟨j + 1, by omega, ends⟩
    · have below := (lower acts).trans_le (lasts j later).2
      obtain ⟨l, latest, ends⟩ := ih _ (level ▸ below) (j + 1) next rfl
      exact never ⟨l, by omega, ends⟩

end Run

end System

end Flinstone.Lib
