import Mathlib.Logic.Basic
import Mathlib.Tactic.ByContra

/-! # Programs and loops that may stop -/

namespace Flinstone.Lib

variable {σ τ ε α β : Type}

def StopsWith (kind : ε → Prop) (r : Except ε α) : Prop := ∃ e, r = .error e ∧ kind e

section
variable {kind : ε → Prop}

@[simp] theorem stopsWith_ok (a : α) : ¬ StopsWith kind (.ok a : Except ε α) := by
  rintro ⟨e, impossible, -⟩
  cases impossible

@[simp] theorem stopsWith_pure (a : α) : ¬ StopsWith kind (pure a : Except ε α) := stopsWith_ok a

@[simp] theorem stopsWith_error (e : ε) : StopsWith kind (.error e : Except ε α) ↔ kind e := by
  simp [StopsWith]

theorem stopsWith_bind (x : Except ε α) (f : α → Except ε β) :
    StopsWith kind (x >>= f) ↔ StopsWith kind x ∨ ∃ a, x = .ok a ∧ StopsWith kind (f a) := by
  cases x with
  | error e => simp [bind, Except.bind]
  | ok a => simp [bind, Except.bind]

@[simp] theorem stopsWith_map (x : Except ε α) (f : α → β) : StopsWith kind (x.map f) ↔ StopsWith kind x := by
  cases x <;> simp [Except.map]

end

def Succeeds (r : Except ε α) : Prop := ∃ a, r = .ok a

@[simp] theorem succeeds_ok (a : α) : Succeeds (.ok a : Except ε α) := ⟨a, rfl⟩

@[simp] theorem succeeds_pure (a : α) : Succeeds (pure a : Except ε α) := ⟨a, rfl⟩

instance (r : Except ε α) : Decidable (Succeeds r) :=
  match r with
  | .ok a => isTrue ⟨a, rfl⟩
  | .error _ => isFalse fun h => nomatch h

@[simp] theorem succeeds_map (x : Except ε α) (f : α → β) : Succeeds (x.map f) ↔ Succeeds x := by
  cases x <;> simp [Except.map, Succeeds]

variable {x : Except ε α} {f : α → Except ε β} {b : β} {a : α} {R : σ → τ → Prop} {left : Except ε (Option σ)}
  {right : Except ε (Option τ)} {body : σ → Except ε (Option σ)} {other : τ → Except ε (Option τ)} {P : σ → Prop}
  {bound : Nat} {s : σ} {t : τ}

theorem Succeeds.bind (first : Succeeds x) (rest : ∀ a, x = .ok a → Succeeds (f a)) : Succeeds (x >>= f) := by
  obtain ⟨a, rfl⟩ := first
  exact rest a rfl

theorem Succeeds.ite {c : Prop} [Decidable c] {y : Except ε α} (left : Succeeds x)
    (right : Succeeds y) : Succeeds (if c then x else y) := by
  by_cases h : c
  · rwa [if_pos h]
  · rwa [if_neg h]

theorem Succeeds.not_stopsWith {kind : ε → Prop} (succeeds : Succeeds x) : ¬ StopsWith kind x := by
  obtain ⟨a, rfl⟩ := succeeds
  exact stopsWith_ok a

theorem bind_eq_ok : (x >>= f) = .ok b ↔ ∃ a, x = .ok a ∧ f a = .ok b := by
  cases x <;> simp [bind, Except.bind]

theorem map_eq_ok {f : α → β} : x.map f = .ok b ↔ ∃ a, x = .ok a ∧ f a = b := by
  cases x <;> simp [Except.map]

theorem map_some_eq_ok : x.map some = .ok (some a) ↔ x = .ok a := by
  simp [map_eq_ok]

theorem bind_map_congr {α' β' : Type} {g : α → α'} {f' : α' → Except ε β'} {h : β → β'}
    (rest : ∀ a, x = .ok a → f' (g a) = (f a).map h) : x.map g >>= f' = (x >>= f).map h := by
  cases x with
  | error e => rfl
  | ok a => exact rest a rfl

theorem map_some_map (f : α → β) (x : Except ε α) : (x.map f).map some = (x.map some).map (Option.map f) := by
  cases x <;> rfl

theorem toOption_join_eq_some {x : Except ε (Option α)} : x.toOption.join = some a ↔ x = .ok (some a) := by
  cases x with
  | error e => simp [Except.toOption]
  | ok found => simp [Except.toOption]

def Yields (P : α → Prop) (r : Except ε (Option α)) : Prop := ∀ a, r = .ok (some a) → P a

section
variable {P : α → Prop}

theorem yields_none : Yields P (.ok none : Except ε (Option α)) := by
  intro a found
  simp at found

theorem yields_some {a : α} (holds : P a) : Yields P (.ok (some a) : Except ε (Option α)) := by
  intro b found
  cases found
  exact holds

theorem Yields.bind {x : Except ε β} {f : β → Except ε (Option α)} (rest : ∀ b, Yields P (f b)) :
    Yields P (x >>= f) := by
  intro a found
  obtain ⟨b, -, found⟩ := bind_eq_ok.mp found
  exact rest b a found

theorem Yields.ite {c : Prop} [Decidable c] {x y : Except ε (Option α)} (left : Yields P x)
    (right : Yields P y) : Yields P (if c then x else y) := by
  by_cases h : c
  · rwa [if_pos h]
  · rwa [if_neg h]

end

def Decided (kind : ε → Prop) (stops : Prop) (r : Except ε α) : Prop := ¬ stops ∧ Succeeds r ∨ stops ∧ StopsWith kind r

namespace Decided

variable {kind : ε → Prop} {stops : Prop}

theorem ok (never : ¬ stops) (a : α) : Decided kind stops (.ok a) := .inl ⟨never, a, rfl⟩

variable {e : ε} {r x : Except ε α} {f : α → Except ε β}

theorem error (stopped : stops) (isKind : kind e) : Decided kind stops (.error e : Except ε α) :=
  .inr ⟨stopped, e, rfl, isKind⟩

theorem of_succeeds (never : ¬ stops) (succeeds : Succeeds r) : Decided kind stops r := .inl ⟨never, succeeds⟩

theorem succeeds_iff (decided : Decided kind stops r) : Succeeds r ↔ ¬ stops := by
  rcases decided with ⟨never, succeeds⟩ | ⟨stopped, e, result, -⟩
  · exact iff_of_true succeeds never
  · refine iff_of_false ?_ (not_not.mpr stopped)
    rintro ⟨a, returned⟩
    rw [result] at returned
    cases returned

theorem isKind (decided : Decided kind stops r) (result : r = .error e) : kind e := by
  rcases decided with ⟨-, a, returned⟩ | ⟨-, other, stopped, isKind⟩
  · rw [result] at returned
    cases returned
  · rw [result] at stopped
    cases stopped
    exact isKind

theorem stopsWith_iff (decided : Decided kind stops r) : StopsWith kind r ↔ stops := by
  rcases decided with ⟨never, succeeds⟩ | ⟨stopped, stop⟩
  · exact iff_of_false succeeds.not_stopsWith never
  · exact iff_of_true stop stopped

theorem congr {other : Prop} (decided : Decided kind stops r) (same : stops ↔ other) : Decided kind other r := by
  rwa [Decided, same] at decided

theorem map (decided : Decided kind stops r) (f : α → β) : Decided kind stops (r.map f) := by
  rcases decided with ⟨never, a, rfl⟩ | ⟨stopped, e, rfl, isKind⟩
  · exact .ok never (f a)
  · exact .error stopped isKind

theorem bind (first : Decided kind stops x)
    (rest : ∀ a, x = .ok a → Succeeds (f a)) : Decided kind stops (x >>= f) := by
  rcases first with ⟨never, a, rfl⟩ | ⟨stopped, e, rfl, isKind⟩
  · exact .inl ⟨never, rest a rfl⟩
  · exact .error stopped isKind

theorem bind_or {later : α → Prop}
    (first : Decided kind stops x) (rest : ∀ a, x = .ok a → Decided kind (later a) (f a)) :
    Decided kind (stops ∨ ∃ a, x = .ok a ∧ later a) (x >>= f) := by
  rcases first with ⟨never, a, rfl⟩ | ⟨stopped, e, rfl, isKind⟩
  · have same : later a ↔ stops ∨ ∃ a', (.ok a : Except ε α) = .ok a' ∧ later a' := by
      simp [never]
    exact (rest a rfl).congr same
  · exact .error (.inl stopped) isKind

end Decided

/-- At most `bound` passes; the result counts the passes made. -/
def loop (body : σ → Except ε (Option σ)) : Nat → σ → Except ε (Nat × σ)
  | 0, s => .ok (0, s)
  | bound + 1, s =>
    match body s with
    | .error e => .error e
    | .ok none => .ok (0, s)
    | .ok (some s') =>
      match loop body bound s' with
      | .error e => .error e
      | .ok (passes, final) => .ok (passes + 1, final)

def Along (body : σ → Except ε (Option σ)) (P : σ → Prop) : Nat → σ → Prop
  | 0, _ => True
  | bound + 1, s => P s ∧ ∀ s', body s = .ok (some s') → Along body P bound s'

section
variable {body : σ → Except ε (Option σ)} {P Q : σ → Prop}

def alongCheck (body : σ → Except ε (Option σ)) (check : σ → Bool) : Nat → σ → Bool
  | 0, _ => true
  | bound + 1, s =>
    check s && match body s with
      | .ok (some s') => alongCheck body check bound s'
      | _ => true

theorem alongCheck_iff [DecidablePred P] (bound : Nat) (s : σ) :
    alongCheck body (fun s => decide (P s)) bound s = true ↔ Along body P bound s := by
  induction bound generalizing s with
  | zero => simp [alongCheck, Along]
  | succ bound ih =>
    cases result : body s with
    | error e => simp [alongCheck, Along, result]
    | ok next => cases next <;> simp [alongCheck, Along, result, ih]

instance [DecidablePred P] (bound : Nat) (s : σ) : Decidable (Along body P bound s) :=
  decidable_of_iff _ (alongCheck_iff bound s)

theorem along_true (bound : Nat) (s : σ) : Along body (fun _ => True) bound s := by
  induction bound generalizing s with
  | zero => trivial
  | succ bound ih => exact ⟨trivial, fun s' _ => ih s'⟩

variable {bound bound' passes : Nat} {s final : σ}

theorem Along.mono (le : bound ≤ bound') (along : Along body P bound' s) : Along body P bound s := by
  induction bound generalizing bound' s with
  | zero => trivial
  | succ bound ih =>
    obtain ⟨longer, rfl⟩ := Nat.exists_eq_add_of_lt le
    exact ⟨along.1, fun s' next => ih (Nat.le_add_right bound longer) (along.2 s' next)⟩

/-- The loop stops exactly when some pass begins in a state that makes the body stop that way. -/
theorem loop_stops_iff (kind : ε → Prop) (stops : ∀ s, StopsWith kind (body s) ↔ ¬ P s) (bound : Nat) (s : σ) :
    StopsWith kind (loop body bound s) ↔ ¬ Along body P bound s := by
  induction bound generalizing s with
  | zero => simp [loop, Along]
  | succ bound ih =>
    have here := stops s
    cases result : body s with
    | error e =>
      rw [result, stopsWith_error] at here
      simp [loop, result, Along, here]
    | ok next =>
      have safe : P s := by
        by_contra outside
        obtain ⟨e, stopped, -⟩ := here.mpr outside
        rw [result] at stopped
        cases stopped
      cases next with
      | none => simp [loop, result, Along, safe]
      | some s' =>
        have rest := ih s'
        simp only [Along, safe, true_and, result, Except.ok.injEq, Option.some.injEq, forall_eq', ← rest]
        cases tail : loop body bound s' with
        | error e => simp [loop, result, tail]
        | ok final => simp [loop, result, tail]

theorem loop_succ_eq_ok : loop body (bound + 1) s = .ok (passes, final) ↔ body s = .ok none ∧ 0 = passes ∧ s = final ∨
      ∃ s' passes', body s = .ok (some s') ∧ loop body bound s' = .ok (passes', final) ∧ passes' + 1 = passes := by
  cases result : body s with
  | error e => simp [loop, result]
  | ok next =>
    cases next with
    | none => simp [loop, result]
    | some s' =>
      cases rest : loop body bound s' with
      | error e => simp [loop, result, rest]
      | ok ends =>
        simp only [loop, result, rest]
        grind

theorem loop_extend (run : loop body bound s = .ok (passes, final)) (left : passes < bound)
    (le : bound ≤ bound') : loop body bound' s = .ok (passes, final) := by
  induction bound generalizing bound' s passes with
  | zero => omega
  | succ bound ih =>
    obtain ⟨longer, rfl⟩ := Nat.exists_eq_add_of_lt le
    rcases loop_succ_eq_ok.mp run with leaves | ⟨s', passes', goes, rest, rfl⟩
    · exact loop_succ_eq_ok.mpr (.inl leaves)
    · have same := ih rest (Nat.lt_of_succ_lt_succ left) (Nat.le_add_right bound longer)
      exact loop_succ_eq_ok.mpr (.inr ⟨s', passes', goes, same, rfl⟩)

theorem loop_rest {count : Nat} {mid : σ} (first : loop body passes s = .ok (passes, mid))
    (run : loop body (passes + bound) s = .ok (count, final)) :
    ∃ rest, loop body bound mid = .ok (rest, final) := by
  induction passes generalizing s count with
  | zero =>
    cases first
    exact ⟨count, Nat.zero_add bound ▸ run⟩
  | succ passes ih =>
    rcases loop_succ_eq_ok.mp first with ⟨-, zero, -⟩ | ⟨s', passes', goes, rest, more⟩
    · cases zero
    · obtain rfl := Nat.succ.inj more
      rw [Nat.succ_add] at run
      rcases loop_succ_eq_ok.mp run with ⟨leaves, -, -⟩ | ⟨s'', count', goes', rest', -⟩
      · cases goes.symm.trans leaves
      · obtain rfl := Option.some.inj (Except.ok.inj (goes.symm.trans goes'))
        exact ih rest rest'

theorem loop_map {other : τ → Except ε (Option τ)} {f : σ → τ}
    (steps : ∀ s, (body s).map (Option.map f) = other (f s)) (bound : Nat) (s : σ) :
    (loop body bound s).map (Prod.map id f) = loop other bound (f s) := by
  induction bound generalizing s with
  | zero => rfl
  | succ bound ih =>
    rw [loop, loop, ← steps s]
    cases body s with
    | error e => rfl
    | ok next =>
      cases next with
      | none => rfl
      | some s' =>
        simp only [Except.map, Option.map_some, ← ih s']
        cases loop body bound s' <;> rfl

theorem loop_leaves (measure : σ → Nat) (decreases : ∀ s s', body s = .ok (some s') → measure s' < measure s)
    (run : loop body bound s = .ok (passes, final)) (enough : measure s < bound) :
    passes < bound := by
  induction bound generalizing s passes with
  | zero => omega
  | succ bound ih =>
    rcases loop_succ_eq_ok.mp run with ⟨-, rfl, -⟩ | ⟨s', passes', goes, rest, rfl⟩
    · exact Nat.succ_pos bound
    · have lower := decreases s s' goes
      exact Nat.succ_lt_succ (ih rest (by omega))

theorem loop_keeps (keeps : ∀ s s', P s → body s = .ok (some s') → P s') {bound : Nat} {s : σ}
    (start : P s) {passes : Nat} {final : σ} (run : loop body bound s = .ok (passes, final)) :
    P final := by
  induction bound generalizing s passes with
  | zero =>
    cases run
    exact start
  | succ bound ih =>
    rcases loop_succ_eq_ok.mp run with ⟨-, -, rfl⟩ | ⟨s', passes', goes, rest, -⟩
    · exact start
    · exact ih (keeps s s' start goes) rest

end

def Matches (R : σ → τ → Prop) (left : Except ε (Option σ)) (right : Except ε (Option τ)) : Prop :=
  match left, right with
  | .ok (some s), .ok (some t) => R s t
  | .ok none, .ok none => True
  | .error e, .error e' => e = e'
  | _, _ => False

theorem Matches.imp {R' : σ → τ → Prop} (weaker : ∀ s t, R s t → R' s t) (alike : Matches R left right) :
    Matches R' left right := by
  rcases left with e | s | s <;> rcases right with e' | t | t
  case ok.some.ok.some => exact weaker s t alike
  all_goals exact alike

theorem Matches.map {σ' τ' : Type} {R' : σ' → τ' → Prop} {f : σ → σ'}
    {g : τ → τ'} (moves : ∀ s t, R s t → R' (f s) (g t))
    (alike : Matches R left right) :
    Matches R' (left.map (Option.map f)) (right.map (Option.map g)) := by
  rcases left with e | s | s <;> rcases right with e' | t | t
  case error.error => exact alike
  case ok.none.ok.none => trivial
  case ok.some.ok.some => exact moves s t alike
  all_goals exact alike.elim

theorem loop_simulates (steps : ∀ s t, R s t → P s → Matches R (body s) (other t))
    (related : R s t) (along : Along body P bound s) :
    (∃ passes s' t', loop body bound s = .ok (passes, s') ∧ loop other bound t = .ok (passes, t') ∧ R s' t') ∨
      ∃ e, loop body bound s = .error e ∧ loop other bound t = .error e := by
  induction bound generalizing s t with
  | zero => exact .inl ⟨0, s, t, rfl, rfl, related⟩
  | succ bound ih =>
    have pass := steps s t related along.1
    cases left : body s with
    | error e =>
      cases right : other t with
      | error e' =>
        simp only [Matches, left, right] at pass
        subst pass
        exact .inr ⟨e, by simp [loop, left], by simp [loop, right]⟩
      | ok next => simp [Matches, left, right] at pass
    | ok next =>
      cases right : other t with
      | error e' => cases next <;> simp [Matches, left, right] at pass
      | ok next' =>
        cases next <;> cases next' <;> simp only [Matches, left, right] at pass
        · exact .inl ⟨0, s, t, by simp [loop, left], by simp [loop, right], related⟩
        · rcases ih pass (along.2 _ left) with ⟨passes, s', t', one, two, ends⟩ | ⟨e, one, two⟩
          · exact .inl ⟨passes + 1, s', t', by simp [loop, left, one], by simp [loop, right, two], ends⟩
          · exact .inr ⟨e, by simp [loop, left, one], by simp [loop, right, two]⟩

theorem along_iff_of_matches {Q : τ → Prop}
    (steps : ∀ s t, R s t → Matches R (body s) (other t)) (same : ∀ s t, R s t → (P s ↔ Q t))
    (related : R s t) :
    Along body P bound s ↔ Along other Q bound t := by
  induction bound generalizing s t with
  | zero => exact Iff.rfl
  | succ bound ih =>
    have pass := steps s t related
    refine and_congr (same s t related) ?_
    cases left : body s with
    | error e =>
      cases right : other t with
      | error e' => simp
      | ok next => simp [Matches, left, right] at pass
    | ok next =>
      cases right : other t with
      | error e' => cases next <;> simp [Matches, left, right] at pass
      | ok next' =>
        cases next <;> cases next' <;> simp only [Matches, left, right] at pass
        · simp
        · simpa using ih pass

end Flinstone.Lib
