import Flinstone.Lib.Posix

/-! # Opening files -/

namespace Flinstone.Lib
open Option

structure OpenFlags where
  write : Bool
  creat : Bool
  excl : Bool
  trunc : Bool
  directory : Bool
  nofollow : Bool

def Walk.LeadsTo (l : Loc) : Walk → Prop
  | .reached e _ => e = l
  | .missing d n => n :: d = l
  | .failed => False

namespace World

def openStart (base : Option Loc) (path : Text) : Option Loc :=
  if path = [] then none else if path.head? = some '/' then some [] else base

def walkNoFollow (w : World) (base : Loc) (cs : List Comp) : Walk :=
  match cs.getLast? with
  | some (.name n) =>
    match walk w.tree w.maxLinks base cs.dropLast with
    | .reached d k =>
      match w.tree.node (n :: d) with
      | some (.link _) => .failed
      | _ => walk w.tree k d [.name n]
    | _ => .failed
  | _ => walk w.tree w.maxLinks base cs

def openWalk (w : World) (base : Option Loc) (path : Text) (nofollow : Bool) : Walk :=
  match openStart base path with
  | none => .failed
  | some l => if nofollow then w.walkNoFollow l (steps path) else walk w.tree w.maxLinks l (steps path)

/-- The place that is open, and the world with what the flags make of it. `O_EXCL` does not follow a
link either. -/
def openat (w : World) (base : Option Loc) (path : Text) (flags : OpenFlags) : Option (Loc × World) :=
  match w.openWalk base path (flags.nofollow || flags.creat && flags.excl) with
  | .failed => none
  | .missing d n =>
    if ready : (flags.creat && !flags.directory) ∧ w.tree.node d = some .dir ∧ w.tree.node (n :: d) = none then
      some (n :: d, w.put d n (.file []) ready.2.1 (by simp [ready.2.2]))
    else none
  | .reached l _ =>
    if flags.creat && flags.excl then none
    else match w.tree.node l with
      | some .dir => if flags.write || flags.creat then none else some (l, w)
      | some (.file _) =>
        if flags.directory then none
        else if flags.trunc && flags.write then (w.truncate l).map fun w' => (l, w')
        else some (l, w)
      | _ => none

variable {w w' : World} {base : Option Loc} {path : Text} {flags : OpenFlags} {l : Loc}

theorem walkNoFollow_eq {s : Loc} {cs : List Comp} {r : Walk} (walked : w.walkNoFollow s cs = r)
    (goes : r ≠ .failed) : walk w.tree w.maxLinks s cs = r := by
  unfold walkNoFollow at walked
  split at walked
  next n last =>
    have whole : cs = cs.dropLast ++ [.name n] := by
      obtain ⟨front, rfl⟩ := List.getLast?_eq_some_iff.mp last
      rw [List.dropLast_concat]
    split at walked
    next d k front =>
      split at walked
      · exact absurd walked.symm goes
      · rw [whole, walk_append, front, Walk.andThen]
        exact walked
    next => exact absurd walked.symm goes
  next => exact walked

theorem openWalk_eq {nofollow : Bool} {r : Walk} (walked : w.openWalk base path nofollow = r) (goes : r ≠ .failed) :
    ∃ s, openStart base path = some s ∧ walk w.tree w.maxLinks s (steps path) = r := by
  unfold openWalk at walked
  cases start : openStart base path with
  | none =>
    rw [start] at walked
    exact absurd walked.symm goes
  | some s =>
    rw [start] at walked
    refine ⟨s, rfl, ?_⟩
    split_ifs at walked with stops
    · exact walkNoFollow_eq walked goes
    · exact walked

theorem truncate_alike {bytes : Text} (file : w.tree.node l = some (.file bytes)) (done : w.truncate l = some w') :
    w.tree.Alike w'.tree ∧ w'.cwd = w.cwd ∧ w'.maxLinks = w.maxLinks := by
  cases l with
  | nil => cases done
  | cons n d =>
    rw [truncate] at done
    split_ifs at done with ready
    obtain rfl := some.inj done
    exact ⟨put_alike file [] ready.1 ready.2, rfl, rfl⟩

theorem lookup_filled (sub : w.tree.Sub w'.tree) (cwd : w'.cwd = w.cwd) (links : w'.maxLinks = w.maxLinks) {d : Loc}
    {n : Name} {x : Node} (filled : w'.tree.node (n :: d) = some x) (plain : ∀ target, x ≠ .link target)
    (missing : w.lookup path = .missing d n) : ∃ k, w'.lookup path = .reached (n :: d) k := by
  rw [lookup, walkFrom, start] at missing ⊢
  rw [cwd, links]
  split at missing
  · cases missing
  · exact walk_filled sub filled plain missing

theorem openat_leads (opened : w.openat base path flags = some (l, w')) :
    ∃ s, openStart base path = some s ∧ (walk w.tree w.maxLinks s (steps path)).LeadsTo l ∧
      ∀ p, w.lookup p = walk w.tree w.maxLinks s (steps path) → ∃ k, w'.lookup p = .reached l k := by
  unfold openat at opened
  split at opened
  · cases opened
  next d n found =>
    obtain ⟨s, start, walked⟩ := openWalk_eq found (by simp)
    split_ifs at opened with ready
    obtain ⟨rfl, rfl⟩ := Prod.mk.inj (some.inj opened)
    refine ⟨s, start, by rw [walked]; rfl, fun p same => ?_⟩
    have filled : (w.put d n (.file []) ready.2.1 (by simp [ready.2.2])).tree.node (n :: d) = some (.file []) :=
      if_pos rfl
    exact lookup_filled (put_sub ready.2.1 ready.2.2) rfl rfl filled (by simp) (same.trans walked)
  next e k found =>
    obtain ⟨s, start, walked⟩ := openWalk_eq found (by simp)
    have there : (walk w.tree w.maxLinks s (steps path)).LeadsTo e := by
      rw [walked]
      rfl
    by_cases made : (flags.creat && flags.excl) = true
    · rw [if_pos made] at opened
      cases opened
    rw [if_neg made] at opened
    split at opened
    next dir =>
      split_ifs at opened
      obtain ⟨rfl, rfl⟩ := Prod.mk.inj (some.inj opened)
      exact ⟨s, start, there, fun p same => ⟨k, same.trans walked⟩⟩
    next bytes file =>
      split_ifs at opened
      · obtain ⟨u, emptied, same⟩ := map_eq_some_iff.mp opened
        obtain ⟨rfl, rfl⟩ := Prod.mk.inj same
        obtain ⟨alike, cwd, links⟩ := truncate_alike file emptied
        exact ⟨s, start, there, fun p same => ⟨k, (lookup_alike alike cwd links p).trans (same.trans walked)⟩⟩
      · obtain ⟨rfl, rfl⟩ := Prod.mk.inj (some.inj opened)
        exact ⟨s, start, there, fun p same => ⟨k, same.trans walked⟩⟩
    next => cases opened

end World

end Flinstone.Lib
