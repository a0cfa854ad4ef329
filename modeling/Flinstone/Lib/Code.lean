import Mathlib.Data.List.Basic

/-! # Routines in machine code -/

namespace Flinstone.Lib
open List

inductive Code (σ : Type*) where
  | op (effect : σ → σ)
  | jump (taken : σ → Bool) (target : Nat)
  | ret

namespace Code
variable {σ : Type*} {code : List (Code σ)} {Q : σ → Prop} {pc exit target : Nat} {s : σ}

def run (code : List (Code σ)) : Nat → Nat → σ → Option σ
  | 0, _, _ => none
  | fuel + 1, pc, s =>
    match code[pc]? with
    | some (op effect) => run code fuel (pc + 1) (effect s)
    | some (jump taken target) => run code fuel (if taken s then target else pc + 1) s
    | some ret => some s
    | none => none

def Returns (code : List (Code σ)) (Q : σ → Prop) (pc : Nat) (s : σ) : Prop :=
  ∃ fuel s', run code fuel pc s = some s' ∧ Q s'

def block : List (Code σ) → σ → σ
  | op effect :: rest, s => block rest (effect s)
  | _, s => s

def blockLength : List (Code σ) → Nat
  | op _ :: rest => blockLength rest + 1
  | _ => 0

theorem Returns.mono {Q' : σ → Prop} (returns : Returns code Q pc s) (weaker : ∀ s, Q s → Q' s) :
    Returns code Q' pc s := by
  obtain ⟨fuel, s', ran, holds⟩ := returns
  exact ⟨fuel, s', ran, weaker s' holds⟩

theorem Returns.ret (here : code[pc]? = some ret) (holds : Q s) : Returns code Q pc s :=
  ⟨1, s, by simp [run, here], holds⟩

theorem Returns.jump {taken : σ → Bool} (here : code[pc]? = some (jump taken target))
    (next : Returns code Q (if taken s then target else pc + 1) s) : Returns code Q pc s := by
  obtain ⟨fuel, s', ran, holds⟩ := next
  exact ⟨fuel + 1, s', by simp only [run, here, ran], holds⟩

theorem Returns.op {effect : σ → σ} (here : code[pc]? = some (op effect))
    (next : Returns code Q (pc + 1) (effect s)) : Returns code Q pc s := by
  obtain ⟨fuel, s', ran, holds⟩ := next
  exact ⟨fuel + 1, s', by simp only [run, here, ran], holds⟩

theorem Returns.block (next : Returns code Q (pc + blockLength (code.drop pc)) (block (code.drop pc) s)) :
    Returns code Q pc s := by
  induction rest : code.drop pc generalizing pc s with
  | nil => simpa only [rest, blockLength, block, Nat.add_zero] using next
  | cons instr tail ih =>
    have here : code[pc]? = some instr := by rw [← head?_drop, rest, head?_cons]
    have behind : code.drop (pc + 1) = tail := by rw [← tail_drop, rest, tail_cons]
    rw [rest] at next
    cases instr with
    | op effect =>
      refine .op here (ih ?_ behind)
      rw [behind, Nat.add_assoc, Nat.add_comm 1]
      exact next
    | jump taken target => exact next
    | ret => exact next

theorem run_unique {fuel fuel' : Nat} {a b : σ} (first : run code fuel pc s = some a)
    (second : run code fuel' pc s = some b) : a = b := by
  induction fuel generalizing fuel' pc s with
  | zero => cases first
  | succ fuel ih =>
    cases fuel' with
    | zero => cases second
    | succ fuel' =>
      rw [run] at first second
      split at first <;> simp only [*] at second
      · exact ih first second
      · exact ih first second
      · exact Option.some_inj.mp second
      · cases first

theorem Returns.result {fuel : Nat} {s' : σ} (returns : Returns code Q pc s) (ran : run code fuel pc s = some s') :
    Q s' := by
  obtain ⟨fuel', a, ran', holds⟩ := returns
  exact run_unique ran' ran ▸ holds

section
variable {again : σ → Bool} {I : Nat → σ → Prop}

theorem Returns.repeats (closes : code[pc + blockLength (code.drop pc)]? = some (Code.jump again pc))
    (pass : ∀ j s, I (j + 1) s → I j (Code.block (code.drop pc) s) ∧
      again (Code.block (code.drop pc) s) = decide (j ≠ 0))
    (done : ∀ s, I 0 s → Returns code Q (pc + blockLength (code.drop pc) + 1) s)
    {left : Nat} (start : I (left + 1) s) : Returns code Q pc s := by
  induction left generalizing s with
  | zero =>
    obtain ⟨kept, stays⟩ := pass 0 s start
    refine .block (.jump closes ?_)
    rw [stays, if_neg (by simp)]
    exact done _ kept
  | succ left ih =>
    obtain ⟨kept, stays⟩ := pass (left + 1) s start
    refine .block (.jump closes ?_)
    rw [stays, if_pos (by simp)]
    exact ih kept

end

end Code

end Flinstone.Lib
