import Flinstone.Fs.Facade
import Flinstone.Lib.Frame
import Flinstone.Lib.Linkless

/-! # What the protected paths protect -/

namespace Flinstone.Fs
open Flinstone.Lib List

def guarded (w : World) (paths : List Text) : Service where
  world := w
  policy := some (paths.foldl protectedAdd [])
  undoStack := []

def Shielded (paths : List Text) (l : Loc) : Prop := ∃ p ∈ paths, locate [] (comps p) <:+ l

instance (paths : List Text) (l : Loc) : Decidable (Shielded paths l) :=
  inferInstanceAs (Decidable (∃ p ∈ paths, locate [] (comps p) <:+ l))

/-! ## Calls that leave the protected places alone -/

def Clear (S : Loc → Prop) (w : World) (path : Text) : Prop := ∀ l ∈ w.leadsTo path, ¬ S l

def ClearWay (S : Loc → Prop) (w : World) (path : Text) : Prop :=
  ∀ front rest, comps path = front ++ rest → ∀ base ∈ w.start path,
    w.tree.node (locate base front) = none → ¬ S (locate base front)

def ClearMove (S : Loc → Prop) (w : World) (src dst : Text) : Prop :=
  ∀ l ∈ w.leadsTo src, ∀ l' ∈ w.leadsTo dst, ∀ front, S (front ++ l) ∨ S (front ++ l') → w.tree.node (front ++ l) = none

def ClearUndo (S : Loc → Prop) (w : World) : Command → Prop
  | .createFile path | .createDir path | .write path _ _ => Clear S w path
  | .delete _ => True
  | .move path path2 => ClearMove S w path2 path

def Spares (S : Loc → Prop) (s : Service) : Op → Prop
  | .save path _ => s.checkPolicyWrite path ≠ 0 ∨ Clear S s.world (pathField path)
  | .delete path => s.checkPolicyDelete path ≠ 0 ∨ Clear S s.world (pathField path)
  | .createFile path | .createDir path =>
    Clear S s.world (pathField path) ∧ ClearWay S s.world (pathField path)
  | .move src dst => ClearMove S s.world (pathField src) (pathField dst)
  | .undo => ∀ cmd ∈ s.undoStack.head?, ClearUndo S s.world cmd

structure Safe (S : Loc → Prop) (w w' : World) : Prop where
  linkless : w'.tree.Linkless
  keeps : World.Keeps S w w'

section Calls
variable {S : Loc → Prop} {j : Jail} {w : World}

theorem Safe.refl (linkless : w.tree.Linkless) : Safe S w w := ⟨linkless, .refl S w⟩

variable {w' : World} {path src dst : Text}

theorem Safe.trans {w'' : World} (first : Safe S w w') (second : Safe S w' w'') : Safe S w w'' :=
  ⟨second.linkless, first.keeps.trans second.keeps⟩

theorem Safe.result {after : Option World} (before : Safe S w w')
    (step : ∀ w'', after = some w'' → Safe S w' w'') : Safe S w (result w' after).2 := by
  cases after with
  | none => exact before
  | some w'' => exact before.trans (step w'' rfl)

theorem safe_writeFile (linkless : w.tree.Linkless) (clear : Clear S w path)
    (bytes : Text) (w' : World) (written : w.writeFile path bytes = some w') : Safe S w w' where
  linkless := World.writeFile_linkless linkless written
  keeps := World.keeps_writeFile written fun l opens => clear l (World.leadsTo_of_opensAt linkless opens)

theorem safe_mkdir (linkless : w.tree.Linkless) (clear : Clear S w path)
    (w' : World) (made : w.mkdir path = some w') : Safe S w w' where
  linkless := World.mkdir_linkless linkless made
  keeps := World.keeps_mkdir made fun l makes => clear l (World.leadsTo_of_makesAt linkless makes)

theorem safe_unlink (linkless : w.tree.Linkless) (clear : Clear S w path)
    (w' : World) (removed : w.unlink path = some w') : Safe S w w' where
  linkless := World.unlink_linkless linkless removed
  keeps := World.keeps_unlink removed fun d n found =>
    clear (n :: d) (World.leadsTo_of_entry linkless found)

theorem safe_rmdir (linkless : w.tree.Linkless) (clear : Clear S w path)
    (w' : World) (removed : w.rmdir path = some w') : Safe S w w' where
  linkless := World.rmdir_linkless linkless removed
  keeps := World.keeps_rmdir removed fun d n found =>
    clear (n :: d) (World.leadsTo_of_entry linkless found)

theorem safe_rename (linkless : w.tree.Linkless) (clear : ClearMove S w src dst)
    (w' : World) (renamed : w.rename src dst = some w') : Safe S w w' where
  linkless := World.rename_linkless linkless renamed
  keeps := by
    obtain ⟨d, n, e, m, x, found, found', present, _, moved⟩ := World.rename_some renamed
    have empty := clear _ (World.leadsTo_of_entry linkless found) _ (World.leadsTo_of_entry linkless found')
    have there : w.tree.node (n :: d) ≠ none := by rw [present]; simp
    split_ifs at moved with same
    · rw [moved]
      exact .refl S w
    · obtain ⟨_, inner, home, apart, leaf, rfl⟩ := moved
      refine World.keeps_shift (fun inside => there (empty [] (Or.inl inside)))
        (fun inside => there (empty [] (Or.inr inside))) ?_ ?_
      · exact fun front inside => empty front (Or.inl inside)
      · exact fun front inside => empty front (Or.inr inside)

theorem safe_mkdirParents (linkless : w.tree.Linkless) (fuel : Nat) (way : ClearWay S w path) :
    Safe S w (mkdirParents fuel path w).2 ∧ w.tree.Sub (mkdirParents fuel path w).2.tree ∧
      (mkdirParents fuel path w).2.cwd = w.cwd := by
  have idle : Safe S w w ∧ w.tree.Sub w.tree ∧ w.cwd = w.cwd := ⟨.refl linkless, fun _ _ present => present, rfl⟩
  induction fuel generalizing path with
  | zero => exact idle
  | succ fuel ih =>
    rw [mkdirParents]
    cases cut : cutLast '/' (path.take (fsPathMax - 1)) with
    | none => exact idle
    | some tmp =>
      cases tmp with
      | nil => exact idle
      | cons c tmp =>
        obtain ⟨⟨rest, rfl⟩, _⟩ := cutLast_take cut
        have shorter : ClearWay S w (c :: tmp) := by
          intro front more split base start
          refine way front (more ++ comps rest) ?_ base start
          rw [comps_slash, split, append_assoc]
        obtain ⟨safe, sub, cwd⟩ := ih shorter
        dsimp only
        split_ifs
        · exact idle
        · exact ⟨safe, sub, cwd⟩
        · cases made : (mkdirParents fuel (c :: tmp) w).2.mkdir (c :: tmp) with
          | none => exact ⟨safe, sub, cwd⟩
          | some w' =>
            have start : (mkdirParents fuel (c :: tmp) w).2.start (c :: tmp) =
                w.start (c :: tmp ++ '/' :: rest) := by
              rw [World.start, cwd]
              rfl
            obtain ⟨d, n, home, free, found, same⟩ := World.mkdir_some made
            have outside : ¬ S (n :: d) := by
              have leads := World.leadsTo_of_entry safe.linkless found
              obtain ⟨base, from', there⟩ := Option.map_eq_some_iff.mp leads
              have missing : w.tree.node (n :: d) = none := by
                by_contra present
                obtain ⟨x, present⟩ := Option.ne_none_iff_exists'.mp present
                cases free.symm.trans (sub _ x present)
              rw [← there] at missing ⊢
              exact way (comps (c :: tmp)) (comps rest) (comps_slash _ _) base (start ▸ from') missing
            subst same
            refine ⟨safe.trans ⟨World.mkdir_linkless safe.linkless made, World.keeps_put outside⟩, ?_, cwd⟩
            exact fun l x present => World.put_sub home free l x (sub l x present)

theorem safe_localWriteText (linkless : w.tree.Linkless) (clear : Clear S w path)
    (content : Text) : Safe S w (localWriteText j w path content).2 := by
  rw [localWriteText]
  split_ifs
  · exact .refl linkless
  · exact (Safe.refl linkless).result (safe_writeFile linkless clear content)

theorem safe_made (linkless : w.tree.Linkless) (clear : Clear S w path) (way : ClearWay S w path) :
    Safe S w (mkdirParents fsPathMax path w).2 ∧ Clear S (mkdirParents fsPathMax path w).2 path := by
  obtain ⟨safe, _, cwd⟩ := safe_mkdirParents linkless fsPathMax way
  refine ⟨safe, ?_⟩
  unfold Clear World.leadsTo World.start at clear ⊢
  rwa [cwd]

theorem safe_localCreateFile (linkless : w.tree.Linkless) (clear : Clear S w path)
    (way : ClearWay S w path) : Safe S w (localCreateFile j w path).2 := by
  rw [localCreateFile]
  split_ifs
  · exact .refl linkless
  · obtain ⟨safe, clear⟩ := safe_made linkless clear way
    exact safe.result (safe_writeFile safe.linkless clear [])

theorem safe_localCreateDir (linkless : w.tree.Linkless) (clear : Clear S w path)
    (way : ClearWay S w path) : Safe S w (localCreateDir j w path).2 := by
  rw [localCreateDir]
  split_ifs
  · exact .refl linkless
  · obtain ⟨safe, clear⟩ := safe_made linkless clear way
    exact safe.result (safe_mkdir safe.linkless clear)

theorem safe_localDelete (linkless : w.tree.Linkless) (clear : Clear S w path) : Safe S w (localDelete j w path).2 := by
  rw [localDelete]
  split_ifs
  · exact .refl linkless
  · split
    · exact .refl linkless
    · exact (Safe.refl linkless).result (safe_rmdir linkless clear)
    · exact (Safe.refl linkless).result (safe_unlink linkless clear)

theorem safe_localMove (linkless : w.tree.Linkless) (clear : ClearMove S w src dst) :
    Safe S w (localMove j w src dst).2 := by
  rw [localMove]
  split_ifs
  · exact .refl linkless
  · exact .refl linkless
  · exact (Safe.refl linkless).result (safe_rename linkless clear)

theorem safe_undo (linkless : w.tree.Linkless) {cmd : Command} (clear : ClearUndo S w cmd) :
    Safe S w (cmd.undo j w).2 := by
  cases cmd with
  | createFile path => exact safe_localDelete linkless clear
  | createDir path => exact safe_localDelete linkless clear
  | delete path => exact .refl linkless
  | move path path2 => exact safe_localMove linkless clear
  | write path content old =>
    cases old with
    | none => exact .refl linkless
    | some text => exact safe_localWriteText linkless clear text

end Calls

section Histories
variable {S : Loc → Prop} {j : Jail} {s : Service}

theorem safe_step (linkless : s.world.tree.Linkless) {op : Op} (spares : Spares S s op) :
    Safe S s.world (op.run j s).2.world := by
  cases op with
  | save path content =>
    rw [Op.run, Service.fmSaveText]
    split_ifs with denied
    · exact .refl linkless
    · rw [Service.perform_world]
      have allowed : ¬ s.checkPolicyWrite path ≠ 0 := by simpa [chainRun] using denied
      exact safe_localWriteText linkless (spares.resolve_left allowed) _
  | createFile path =>
    rw [Op.run, Service.fmCreateFile, Service.perform_world]
    exact safe_localCreateFile linkless spares.1 spares.2
  | createDir path =>
    rw [Op.run, Service.fmCreateDir, Service.perform_world]
    exact safe_localCreateDir linkless spares.1 spares.2
  | delete path =>
    rw [Op.run, Service.fmDelete]
    split_ifs with denied
    · exact .refl linkless
    · have allowed : ¬ s.checkPolicyDelete path ≠ 0 := by simpa [chainRun] using denied
      exact safe_localDelete linkless (spares.resolve_left allowed)
  | move src dst =>
    rw [Op.run, Service.fmMove, Service.perform_world]
    exact safe_localMove linkless spares
  | undo =>
    rw [Op.run, Service.fmUndo]
    cases stack : s.undoStack with
    | nil => exact .refl linkless
    | cons cmd rest => exact safe_undo linkless (spares cmd (by rw [stack]; rfl))

theorem safe_history (linkless : s.world.tree.Linkless) (ops : List Op)
    (spares : ∀ before op after, ops = before ++ op :: after → Spares S (history j s before) op) :
    Safe S s.world (history j s ops).world := by
  induction ops generalizing s with
  | nil => exact .refl linkless
  | cons op ops ih =>
    have step := safe_step (j := j) linkless (spares [] op ops rfl)
    refine step.trans (ih step.linkless fun before op' after split => ?_)
    exact spares (op :: before) op' after (by rw [split, cons_append])

end Histories

/-! ## Canonical names -/

variable {p l : Loc} {adds : List Text}

theorem matchesProtected_render (inner : p ≠ []) (below : p <:+ l) : matchesProtected (render l) (render p) := by
  obtain ⟨front, rfl⟩ := below
  have longer : front ++ p ≠ [] := by simp [inner]
  rw [render, render, if_neg inner, if_neg longer, spell_append, matchesProtected, Bool.and_eq_true, drop_left]
  refine ⟨List.isPrefixOf_iff_prefix.mpr (prefix_append _ _), ?_⟩
  cases front with
  | nil => rfl
  | cons n front => simp [spell_head (cons_ne_nil n front)]

theorem matchesProtected_iff {e : Text} (absolute : e.head? = some '/') (l : Loc) :
    matchesProtected (render l) e ↔ ∃ r, e = render r ∧ r <:+ l ∧ (r = [] → l = []) := by
  constructor
  · intro found
    obtain ⟨first, border⟩ := Bool.and_eq_true_iff.mp found
    obtain ⟨rest, cut⟩ := isPrefixOf_iff_prefix.mp first
    rw [← cut, drop_left] at border
    have ends : rest = [] ∨ rest.head? = some '/' := by simpa using border
    by_cases root : l = []
    · subst root
      cases e with
      | nil => cases absolute
      | cons c e =>
        obtain ⟨rfl, nothing⟩ := cons.inj cut
        obtain ⟨rfl, _⟩ := append_eq_nil_iff.mp nothing
        exact ⟨[], rfl, suffix_refl [], fun _ => rfl⟩
    · rw [render, if_neg root] at cut
      obtain ⟨r, rfl, below⟩ := spell_cut cut.symm ends
      have inner : r ≠ [] := by
        rintro rfl
        cases absolute
      exact ⟨r, by rw [render, if_neg inner], below, fun top => absurd top inner⟩
  · rintro ⟨r, rfl, below, top⟩
    by_cases inner : r = []
    · subst inner
      rw [top rfl]
      decide
    · exact matchesProtected_render inner below

theorem foldl_protectedAdd (stored paths : List Text) (room : stored.length ≤ fsPolicyMaxProtected) :
    paths.foldl protectedAdd stored = stored ++ (paths.take (fsPolicyMaxProtected - stored.length)).map pathField := by
  induction paths generalizing stored with
  | nil => simp
  | cons path paths ih =>
    rw [foldl_cons, protectedAdd]
    split_ifs with full
    · have none_left : fsPolicyMaxProtected - stored.length = 0 := by omega
      rw [ih stored room, none_left]
      simp
    · obtain ⟨left, more⟩ : ∃ left, fsPolicyMaxProtected - stored.length = left + 1 :=
        ⟨fsPolicyMaxProtected - stored.length - 1, by omega⟩
      have fewer : fsPolicyMaxProtected - (stored ++ [path.take (fsPathMax - 1)]).length = left := by
        rw [length_append, length_singleton]
        omega
      rw [ih _ (by rw [length_append, length_singleton]; omega), fewer, more, take_succ_cons, map_cons, append_assoc]
      rfl

theorem run_policy (j : Jail) (s : Service) (op : Op) : (op.run j s).2.policy = s.policy := by
  have performed : ∀ cmd, (s.perform j cmd).2.policy = s.policy := by
    intro cmd
    unfold Service.perform Service.pushUndo
    dsimp only
    split_ifs <;> rfl
  cases op with
  | save path content =>
    rw [Op.run, Service.fmSaveText]
    split_ifs
    · rfl
    · exact performed _
  | createFile path => exact performed _
  | createDir path => exact performed _
  | delete path =>
    rw [Op.run, Service.fmDelete]
    split_ifs <;> rfl
  | move src dst => exact performed _
  | undo =>
    rw [Op.run, Service.fmUndo]
    cases s.undoStack <;> rfl

theorem history_policy (j : Jail) (s : Service) (ops : List Op) : (history j s ops).policy = s.policy := by
  induction ops generalizing s with
  | nil => rfl
  | cons op ops ih => exact (ih _).trans (run_policy j s op)

theorem canonical_denied (j : Jail) (w : World) {paths : List Text} (ops : List Op)
    (stored : render p ∈ paths.take fsPolicyMaxProtected) (inner : p ≠ [])
    (short : (render p).length < fsPathMax) (below : p <:+ l) :
    (history j (guarded w paths) ops).checkPolicyWrite (render l) ≠ 0 := by
  have kept : pathField (render p) = render p := take_of_length_le (by omega)
  have listed : render p ∈ paths.foldl protectedAdd [] := by
    rw [foldl_protectedAdd [] paths (Nat.zero_le _), nil_append, mem_map]
    exact ⟨render p, stored, kept⟩
  have found : (paths.foldl protectedAdd []).any (matchesProtected (render l)) :=
    any_eq_true.mpr ⟨_, listed, matchesProtected_render inner below⟩
  rw [Service.checkPolicyWrite, history_policy, guarded]
  simp [protectedCanWrite, found]

theorem protectedAdd_all (few : adds.length ≤ fsPolicyMaxProtected)
    (short : ∀ e ∈ adds, e.length < fsPathMax) : adds.foldl protectedAdd [] = adds := by
  rw [foldl_protectedAdd [] adds (Nat.zero_le _), nil_append, length_nil, Nat.sub_zero, take_of_length_le few]
  have kept : adds.map pathField = adds.map id :=
    map_congr_left fun e member => take_of_length_le (Nat.le_sub_one_of_lt (short e member))
  rw [kept, map_id]

def protName : Name := ⟨"prot".toList, by decide⟩
def plainName : Name := ⟨"a".toList, by decide⟩

def longName : Name := ⟨List.replicate fsPathMax 'a', by decide⟩

theorem protectedCanWrite_render (absolute : ∀ e ∈ adds, e.head? = some '/') (l : Loc) :
    protectedCanWrite adds (render l) = false ↔ ∃ r, render r ∈ adds ∧ r <:+ l ∧ (r = [] → l = []) := by
  rw [protectedCanWrite, Bool.not_eq_false', any_eq_true]
  constructor
  · rintro ⟨e, member, found⟩
    obtain ⟨r, rfl, below⟩ := (matchesProtected_iff (absolute e member) l).mp found
    exact ⟨r, member, below⟩
  · rintro ⟨r, member, below⟩
    exact ⟨render r, member, (matchesProtected_iff (absolute _ member) l).mpr ⟨r, rfl, below⟩⟩

theorem comps_prefix_render (l : Loc) (e : Text) :
    comps e <+: comps (render l) ↔ ∃ r, comps e = comps (render r) ∧ r <:+ l := by
  rw [comps_render, prefix_map_iff]
  constructor
  · rintro ⟨names, first, same⟩
    refine ⟨names.reverse, ?_, ?_⟩
    · rw [comps_render, reverse_reverse, same]
    · rwa [← reverse_prefix, reverse_reverse]
  · rintro ⟨r, same, below⟩
    exact ⟨r.reverse, reverse_prefix.mpr below, by rw [same, comps_render]⟩

/-- Exactly when each protected path of names is covered by a canonical one, which is not the root. -/
theorem protected_ancestors_iff {adds : List Text} (few : adds.length ≤ fsPolicyMaxProtected)
    (absolute : ∀ e ∈ adds, e.head? = some '/') (short : ∀ e ∈ adds, e.length < fsPathMax) :
    (∀ l, (protectedCanWrite (adds.foldl protectedAdd []) (render l) = false ↔
          ∃ e ∈ adds, comps e <+: comps (render l)) ∧
        (protectedCanDelete (adds.foldl protectedAdd []) (render l) = false ↔
          ∃ e ∈ adds, comps e <+: comps (render l))) ↔
      ∀ e ∈ adds, ∀ r, comps e = comps (render r) → ∃ q, q ≠ [] ∧ render q ∈ adds ∧ q <:+ r := by
  rw [protectedAdd_all few short]
  simp only [protectedCanDelete, and_self]
  have denied := protectedCanWrite_render absolute
  constructor
  · intro exact_test e member r names
    have deny (l : Loc) (below : r <:+ l) : ∃ q, render q ∈ adds ∧ q <:+ l ∧ (q = [] → l = []) :=
      (denied l).mp ((exact_test l).mpr ⟨e, member, (comps_prefix_render l e).mpr ⟨r, names, below⟩⟩)
    by_cases root : r = []
    · -- the root covers a name that no entry can hold
      subst root
      obtain ⟨q, listed, over_name, top⟩ := deny [longName] (nil_suffix)
      have whole : q = [longName] := by
        rcases suffix_cons_iff.mp over_name with same | empty
        · exact same
        · exact absurd (top (suffix_nil.mp empty)) (cons_ne_nil _ _)
      have small : fsPathMax + 1 < fsPathMax := by
        simpa [whole, render, spell, longName] using short _ listed
      exact absurd small (Nat.not_succ_lt_self)
    · obtain ⟨q, listed, over_r, top⟩ := deny r (suffix_refl r)
      exact ⟨q, fun empty => root (top empty), listed, over_r⟩
  · intro covered l
    rw [denied]
    constructor
    · rintro ⟨r, member, below, _⟩
      exact ⟨render r, member, (comps_prefix_render l _).mpr ⟨r, rfl, below⟩⟩
    · rintro ⟨e, member, first⟩
      obtain ⟨r, names, below⟩ := (comps_prefix_render l e).mp first
      obtain ⟨q, inner, listed, over_r⟩ := covered e member r names
      exact ⟨q, listed, over_r.trans below, fun top => absurd top inner⟩

theorem protected_ancestors_canonical :
    protectedCanWrite (["/prot".toList].foldl protectedAdd []) "/prot/a".toList = false :=
  ((@protected_ancestors_iff ["/prot".toList] (by decide) (by decide) (by decide)).mpr (by
      intro e member r names
      obtain rfl := mem_singleton.mp member
      have same : [protName].reverse.map Comp.name = r.reverse.map Comp.name := by
        rw [← comps_render r, ← names]
        decide
      refine ⟨[protName], by decide, by decide, ?_⟩
      rw [names_injective same])
    [plainName, protName]).1.mpr ⟨"/prot".toList, by decide, by decide⟩

theorem protected_slash_ignored :
    protectedCanWrite (["/prot/".toList].foldl protectedAdd []) "/prot/a".toList = true ∧
      protectedCanDelete (["/".toList].foldl protectedAdd []) "/prot".toList = true ∧
      comps "/prot/".toList <+: comps "/prot/a".toList ∧ comps "/".toList <+: comps "/prot".toList := by
  decide

theorem policy_protects (j : Jail) (w : World) (linkless : w.tree.Linkless) (paths : List Text)
    (ops : List Op) (spares : ∀ before op after, ops = before ++ op :: after →
      Spares (Shielded paths) (history j (guarded w paths) before) op) :
    ∀ before after, ops = before ++ after →
      World.Keeps (Shielded paths) w (history j (guarded w paths) before).world := by
  rintro before after rfl
  refine (safe_history (s := guarded w paths) linkless before fun front op rest split => ?_).keeps
  exact spares front op (rest ++ after) (by rw [split, append_assoc, cons_append])

/-! ## A protected directory -/

def protWorld : World where
  tree := Tree.bare.put [] protName .dir Tree.bare.root (by decide)
  cwd := some []
  maxLinks := 40
  touched := []
  cwd_dir l here := by
    rw [← Option.some.inj here]
    rfl

theorem protWorld_linkless : protWorld.tree.Linkless := by
  refine Tree.Linkless.put (fun l target => ?_) (by decide) (by decide) (by simp)
  show (if l = [] then _ else _) ≠ _
  split_ifs <;> simp

theorem policy_protects_small :
    World.Keeps (Shielded ["/prot".toList]) protWorld (history Jail.off
      (guarded protWorld ["/prot".toList])
      [.save "/prot/a".toList "x".toList, .createFile "/a".toList]).world := by
  refine policy_protects Jail.off protWorld protWorld_linkless ["/prot".toList] _ ?_ _ []
    (append_nil _).symm
  intro before op after split
  match before, split with
  | [], split =>
    obtain ⟨rfl, _⟩ := cons.inj split
    exact Or.inl (canonical_denied Jail.off protWorld [] (p := [protName]) (l := [plainName, protName])
      (by decide) (by decide) (by decide) (by decide))
  | [_], split =>
    obtain ⟨rfl, rest⟩ := cons.inj split
    obtain ⟨rfl, _⟩ := cons.inj rest
    have parts : comps (pathField "/a".toList) = [.name plainName] := by decide
    have start : (history Jail.off (guarded protWorld ["/prot".toList])
        [.save "/prot/a".toList "x".toList]).world.start (pathField "/a".toList) = some [] := by
      decide
    constructor
    · intro l leads
      obtain rfl := Option.some.inj leads
      decide
    · intro front more cut base from' missing
      obtain rfl := Option.some.inj (start.symm.trans from')
      rw [parts] at cut
      match front, cut with
      | [], _ => exact nomatch missing.symm.trans (Tree.root _)
      | [_], cut =>
        obtain ⟨rfl, _⟩ := cons.inj cut
        decide
      | _ :: _ :: _, cut => simp at cut
  | _ :: _ :: _, split => simp at split

/-- By another spelling, and by making, moving and undoing. -/
theorem policy_bypassed :
    ¬ World.Keeps (Shielded ["/prot".toList]) protWorld (history Jail.off
        (guarded protWorld ["/prot".toList]) [.save "//prot/a".toList "x".toList]).world ∧
      ¬ World.Keeps (Shielded ["/prot".toList]) protWorld (history Jail.off
        (guarded protWorld ["/prot".toList]) [.createFile "/prot/a".toList]).world ∧
      ¬ World.Keeps (Shielded ["/prot".toList]) protWorld (history Jail.off
        (guarded protWorld ["/prot".toList]) [.move "/prot".toList "/a".toList]).world := by
  refine ⟨fun keeps => ?_, fun keeps => ?_, fun keeps => ?_⟩
  · have same := keeps.node [plainName, protName] (by decide)
    revert same
    decide +kernel
  · have same := keeps.node [plainName, protName] (by decide)
    revert same
    decide +kernel
  · have same := keeps.node [protName] (by decide)
    revert same
    decide +kernel

end Flinstone.Fs
