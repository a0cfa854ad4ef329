import Flinstone.Fs.Sandbox
import Flinstone.Lib.Lexical

/-! # Which paths the jail lets through -/

namespace Flinstone.Fs
open Flinstone.Lib List

/-- The real location of a path or of its longest existing ancestor, which in the end is the root directory. -/
def Judged (w : World) (ab : Text) (e : Loc) : Prop := Located w ab e ∨ e = [] ∧ ∀ l, ¬ Located w ab l

/-- For the root of the file system: what `realpath` finds is that root itself. For another root: with the places
that `realpath` can name the path leads to the same side of the root as with all. -/
def Agrees (w : World) (R : Loc) (ab : Text) : Prop :=
  if R = [] then Located w.within ab []
  else ∀ e e', Judged w ab e → Judged w.within ab e' → (R <:+ e ↔ R <:+ e')

section Judging
variable {w : World} {ab : Text} {e l R : Loc}

theorem exists_judged (w : World) (ab : Text) : ∃ e, Judged w ab e := by
  by_cases found : ∃ e, Located w ab e
  · obtain ⟨e, here⟩ := found
    exact ⟨e, .inl here⟩
  · exact ⟨[], .inr ⟨rfl, not_exists.mp found⟩⟩

theorem Judged.unique (first : Judged w ab e) (second : Judged w ab l) : e = l := by
  rcases first with here | ⟨rfl, gone⟩
  · rcases second with there | ⟨rfl, gone⟩
    · exact here.unique there
    · exact absurd here (gone e)
  · rcases second with there | ⟨rfl, _⟩
    · exact absurd there (gone l)
    · rfl

theorem judged_inside (proper : R ≠ []) (judged : Judged w ab e) :
    (∃ l, Located w ab l ∧ R <:+ l) ↔ R <:+ e := by
  rcases judged with here | ⟨rfl, gone⟩
  · refine ⟨?_, fun inside => ⟨e, here, inside⟩⟩
    rintro ⟨l, there, inside⟩
    rwa [here.unique there]
  · refine iff_of_false (fun ⟨l, there, _⟩ => gone l there) ?_
    rwa [suffix_nil]

end Judging

theorem fsJailInit_root {o : Outcomes} {w : World} {g : Globals} (active : (fsJailInit o w g).isActive) :
    ∃ R, (fsJailInit o w g).root = render R := by
  unfold fsJailInit at active ⊢
  dsimp only at active ⊢
  split at active
  · simp [Jail.isActive] at active
  next wd given =>
    split at active
    · simp [Jail.isActive] at active
    next canon resolved =>
      have real : w.realpath (if g.vmRoot ≠ [] then g.vmRoot else wd) = some canon := by
        by_cases granted : o.realpathInit
        · rwa [if_pos granted] at resolved
        · rw [if_neg granted] at resolved
          cases resolved
      obtain ⟨R, k, _, rfl⟩ := Jail.realpath_eq_some.mp real
      exact ⟨R, stripSlashes_render R⟩

def Jail.withCwd (j : Jail) (cwd : Text) : Jail := { j with cwd }

def cellName : Name := ⟨"cell".toList, by decide⟩

theorem cell_free : Tree.bare.node [cellName] ≠ some .dir := by decide

def cellWorld : World where
  tree := Tree.bare.put [] cellName .dir Tree.bare.root cell_free
  cwd := some [cellName]
  maxLinks := 40
  touched := []
  cwd_dir l here := by
    rw [← Option.some.inj here]
    rfl

def jailOn (vmRoot : Text) : Jail := (fsJailInit allGranted cellWorld ⟨vmRoot, []⟩).withCwd "/cell".toList

end Flinstone.Fs
