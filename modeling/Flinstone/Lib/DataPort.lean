import Mathlib.Data.List.OfFn
import Mathlib.Data.Nat.ModEq

/-! # A data port -/

namespace Flinstone.Lib
open List

structure DataPort (A α : Type) (size : Nat) where
  addr : A
  index : Nat
  begun : 0 < index
  fits : index ≤ size
  buffer : Fin size → α
  store : A → Option (Fin size → α)

namespace DataPort
variable {A α : Type} {size : Nat}

def select (addr : A) (p : DataPort A α size) : DataPort A α size := { p with addr }

variable {p : DataPort A α size}

theorem select_eq {addr : A} (same : p.addr = addr) : p.select addr = p := by
  subst same
  rfl

def position (p : DataPort A α size) : Nat := p.index % size

theorem position_of_index_lt (inside : p.index < size) : p.position = p.index := Nat.mod_eq_of_lt inside

theorem index_of_position_pos (inside : 0 < p.position) : p.index = p.position := by
  rcases lt_or_eq_of_le p.fits with less | full
  · exact (position_of_index_lt less).symm
  · rw [position, full, Nat.mod_self] at inside
    cases inside

theorem position_eq_zero_iff : p.position = 0 ↔ p.index = size := by
  constructor
  · intro aligned
    rcases lt_or_eq_of_le p.fits with less | full
    · have begun := p.begun
      rw [position_of_index_lt less] at aligned
      omega
    · exact full
  · intro full
    rw [position, full, Nat.mod_self]

def block (blank : α) (p : DataPort A α size) : Fin size → α := (p.store p.addr).getD fun _ => blank

def overlay (start : Nat) (entries : List α) (buffer : Fin size → α) : Fin size → α :=
  fun k => if start ≤ k.val then entries.getD (k.val - start) (buffer k) else buffer k

theorem overlay_nil (start : Nat) (buffer : Fin size → α) : overlay start [] buffer = buffer := by
  funext k
  simp [overlay]

theorem overlay_cons (start : Nat) (entry : α) (entries : List α) (buffer : Fin size → α) :
    overlay start (entry :: entries) buffer =
      overlay (start + 1) entries fun k => if k.val = start then entry else buffer k := by
  funext k
  unfold overlay
  rcases lt_trichotomy k.val start with below | here | above
  · simp [not_le.mpr below, not_le.mpr (Nat.lt_succ_of_lt below), Nat.ne_of_lt below]
  · simp [here]
  · have other : k.val ≠ start := Nat.ne_of_gt above
    have step : k.val - start = (k.val - (start + 1)) + 1 := by omega
    simp only [Nat.le_of_lt above, Nat.succ_le_of_lt above, if_true, other, if_false, step, getD_cons_succ]

theorem overlay_ofFn (data buffer : Fin size → α) : overlay 0 (ofFn data) buffer = data := by
  funext k
  simp [overlay]

section
variable [NeZero size] (blank : α)

theorem position_lt (p : DataPort A α size) : p.position < size := Nat.mod_lt _ (Nat.pos_of_neZero size)

def get (p : DataPort A α size) : α × DataPort A α size :=
  if inside : p.index < size then
    (p.buffer ⟨p.index, inside⟩, { p with index := p.index + 1, begun := Nat.succ_pos _, fits := inside })
  else
    (p.block blank 0,
      { p with buffer := p.block blank, index := 1, begun := Nat.one_pos, fits := Nat.pos_of_neZero size })

theorem position_get (p : DataPort A α size) : (p.get blank).2.position = (p.position + 1) % size := by
  unfold get
  split
  · simp [position]
  · next full =>
      have full : p.index = size := le_antisymm p.fits (not_lt.mp full)
      simp [position, full]

theorem addr_get (p : DataPort A α size) : (p.get blank).2.addr = p.addr := by
  unfold get
  split <;> rfl

theorem store_get (p : DataPort A α size) : (p.get blank).2.store = p.store := by
  unfold get
  split <;> rfl

def gets : Nat → DataPort A α size → List α × DataPort A α size
  | 0, p => ([], p)
  | count + 1, p => ((p.get blank).1 :: (gets count (p.get blank).2).1, (gets count (p.get blank).2).2)

theorem gets_within (count : Nat) (p : DataPort A α size) (room : p.index + count ≤ size) :
    (p.gets blank count).1 = ofFn fun k : Fin count => p.buffer ⟨p.index + k, by omega⟩ := by
  induction count generalizing p with
  | zero => simp [gets]
  | succ count ih =>
    have inside : p.index < size := by omega
    have next : p.get blank = (p.buffer ⟨p.index, inside⟩,
        { p with index := p.index + 1, begun := Nat.succ_pos _, fits := inside }) := dif_pos inside
    rw [gets, next, ofFn_succ, ih _ (by show p.index + 1 + count ≤ size; omega)]
    simp [add_assoc, add_comm 1]

variable {data : Fin size → α} {p : DataPort A α size}

theorem gets_aligned (aligned : p.position = 0)
    (stored : p.store p.addr = some data) : (p.gets blank size).1 = ofFn data := by
  have full : ¬ p.index < size := not_lt.mpr (position_eq_zero_iff.mp aligned).ge
  obtain ⟨count, rfl⟩ := Nat.exists_eq_succ_of_ne_zero (NeZero.ne size)
  have loaded : p.block blank = data := by rw [block, stored, Option.getD_some]
  have first : p.get blank = (data 0,
      { p with buffer := data, index := 1, begun := one_pos, fits := Nat.succ_pos _ }) := by
    rw [get, dif_neg full, loaded]
  rw [gets, first, gets_within blank count _ (add_comm 1 count).le, ofFn_succ]
  simp only [add_comm 1]
  rfl

variable [DecidableEq A]

def replaced (p : DataPort A α size) (data : Fin size → α) : A → Option (Fin size → α) :=
  if (p.store p.addr).isSome then Function.update p.store p.addr (some data) else p.store

def put (entry : α) (p : DataPort A α size) : DataPort A α size :=
  let buffer := fun k : Fin size => if k.val = p.position then entry else p.buffer k
  if p.position + 1 < size then
    { p with buffer, index := p.position + 1, begun := Nat.succ_pos _, fits := p.position_lt }
  else
    { p with
      buffer := fun _ => blank
      store := p.replaced buffer
      index := p.position + 1
      begun := Nat.succ_pos _
      fits := p.position_lt }

theorem position_put (entry : α) (p : DataPort A α size) : (p.put blank entry).position = (p.position + 1) % size := by
  unfold put
  split <;> rfl

theorem addr_put (entry : α) (p : DataPort A α size) : (p.put blank entry).addr = p.addr := by
  unfold put
  split <;> rfl

def puts (entries : List α) (p : DataPort A α size) : DataPort A α size :=
  entries.foldl (fun p entry => p.put blank entry) p

variable (entries : List α)

theorem addr_puts (p : DataPort A α size) : (p.puts blank entries).addr = p.addr := by
  induction entries generalizing p with
  | nil => rfl
  | cons entry entries ih => exact (ih (p.put blank entry)).trans (p.addr_put blank entry)

theorem puts_append (first second : List α) (p : DataPort A α size) :
    p.puts blank (first ++ second) = (p.puts blank first).puts blank second :=
  foldl_append

theorem puts_within (p : DataPort A α size) (room : p.position + entries.length < size) :
    (p.puts blank entries).position = p.position + entries.length ∧
      (p.puts blank entries).buffer = overlay p.position entries p.buffer := by
  induction entries generalizing p with
  | nil => exact ⟨rfl, (overlay_nil _ _).symm⟩
  | cons entry entries ih =>
    rw [length_cons, ← add_assoc, add_right_comm] at room ⊢
    have more : p.position + 1 < size := by omega
    have next : (p.put blank entry).position = p.position + 1 := by
      rw [position_put, Nat.mod_eq_of_lt more]
    obtain ⟨position, buffer⟩ := ih (p.put blank entry) (by rwa [next])
    have buffered : (p.put blank entry).buffer = fun k => if k.val = p.position then entry else p.buffer k := by
      simp only [put, more, if_true]
    rw [next] at position
    rw [next, buffered, ← overlay_cons] at buffer
    exact ⟨position, buffer⟩

theorem puts_complete (p : DataPort A α size) (full : p.position + entries.length = size) :
    p.puts blank entries = { p with
        buffer := fun _ => blank
        store := p.replaced (overlay p.position entries p.buffer)
        index := size
        begun := Nat.pos_of_neZero size
        fits := le_rfl } := by
  induction entries generalizing p with
  | nil => exact absurd full (ne_of_lt p.position_lt)
  | cons entry entries ih =>
    rw [length_cons, ← add_assoc, add_right_comm] at full
    show (p.put blank entry).puts blank entries = _
    cases entries with
    | nil =>
      have last : ¬ p.position + 1 < size := by simp only [length_nil] at full; omega
      simp only [puts, foldl_nil, put, last, if_false, overlay_cons, overlay_nil]
      congr 1
    | cons second entries =>
      have more : p.position + 1 < size := by simp only [length_cons] at full; omega
      have next : (p.put blank entry).position = p.position + 1 := by
        rw [position_put, Nat.mod_eq_of_lt more]
      rw [ih (p.put blank entry) (by rwa [next]), next]
      simp only [put, more, if_true, overlay_cons, replaced]

theorem puts_aligned (data : Fin size → α) (aligned : p.position = 0) : p.puts blank (ofFn data) = { p with
        buffer := fun _ => blank
        store := p.replaced data
        index := size
        begun := Nat.pos_of_neZero size
        fits := le_rfl } := by
  rw [puts_complete blank _ p (by rw [aligned, length_ofFn, zero_add]), aligned, overlay_ofFn]

theorem get_after_puts_unaligned (unaligned : 0 < p.position) :
    ((p.puts blank (ofFn data)).get blank).1 = blank := by
  let late := (ofFn data).drop (size - p.position)
  have less := p.position_lt
  have count : late.length = p.position := by
    simp only [late, length_drop, length_ofFn]
    omega
  have completes : p.position + ((ofFn data).take (size - p.position)).length = size := by
    simp only [length_take, length_ofFn]
    omega
  obtain ⟨q, completed⟩ : ∃ q, p.puts blank ((ofFn data).take (size - p.position)) = q := ⟨_, rfl⟩
  have cleared := completed.symm.trans (puts_complete blank _ p completes)
  have aligned : q.position = 0 := position_eq_zero_iff.mpr (congrArg index cleared)
  have room : q.position + late.length < size := by omega
  obtain ⟨position, buffer⟩ := puts_within blank late q room
  have index : (q.puts blank late).index = late.length := by
    rw [index_of_position_pos (by omega), position, aligned, zero_add]
  have inside : (q.puts blank late).index < size := by omega
  rw [← take_append_drop (size - p.position) (ofFn data), puts_append, completed]
  show ((q.puts blank late).get blank).1 = blank
  rw [get, dif_pos inside, buffer, aligned, congrArg DataPort.buffer cleared]
  simp [overlay, index]

end

end DataPort

end Flinstone.Lib
