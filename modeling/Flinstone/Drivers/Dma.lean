import Flinstone.Lib.Bytes
import Flinstone.Lib.Calls
import Flinstone.Lib.SwapDelete
import Mathlib.Data.Multiset.Filter

/-!
# Buffers for direct memory access

`fl_dma_alloc`, `fl_dma_free` and `fl_drivers_shutdown` of `driver_model.c`.
-/

namespace Flinstone.Drivers
open Flinstone.Lib List Option

structure DmaRecord where
  ptr : Nat
  size : Nat
  owner : Option Nat
  deriving DecidableEq

def DmaRecord.buffer (r : DmaRecord) : Nat × Nat := (r.ptr, r.size)

inductive DomainEvent where
  | alloc (ptr size : Nat)
  | free (ptr : Nat) (mem : Memory)

/-- `log` is what the domain allocator did, the last event first; a free keeps the memory it found. -/
structure Dma where
  table : List DmaRecord
  mem : Memory
  log : List DomainEvent

namespace Dma
variable {s s' : Dma} {held live : Multiset DmaRecord} {r : DmaRecord} {ptr fuel : Nat}

def maxDma : Nat := 32

def start (mem : Memory) : Dma := ⟨[], mem, []⟩

def memDomainFree (ptr : Nat) (s : Dma) : Dma := { s with log := .free ptr s.mem :: s.log }

def asmMemZero (ptr size : Nat) (s : Dma) : Dma := { s with mem := s.mem.zero ptr size }

/-- `answer` is what `mem_domain_alloc` returns. -/
def flDmaAllocDevice (dev : Option Nat) (size answer : Nat) (s : Dma) : Nat × Dma :=
  if size = 0 then (0, s)
  else if answer = 0 then (0, s)
  else
    let s := asmMemZero answer size { s with log := .alloc answer size :: s.log }
    if s.table.length ≥ maxDma then (0, memDomainFree answer s)
    else (answer, { s with table := s.table ++ [⟨answer, size, dev⟩] })

def flDmaAlloc (size answer : Nat) (s : Dma) : Nat × Dma := flDmaAllocDevice none size answer s

def flDmaFree (ptr : Nat) (s : Dma) : Dma :=
  if ptr = 0 then s
  else match s.table.find? (·.ptr = ptr) with
    | none => s
    | some r =>
      let s := { s with table := swapDelete s.table (s.table.findIdx (·.ptr = ptr)) }
      memDomainFree ptr (asmMemZero ptr r.size s)

/-- `out` says whether there is somewhere to put the record. -/
def flDmaGetInfo (ptr : Nat) (out : Bool) (s : Dma) : Option DmaRecord :=
  if ptr = 0 ∨ !out then none else s.table.find? (·.ptr = ptr)

def flDmaAllocationCount (s : Dma) : Nat := s.table.length

-- a record with a null pointer would keep this loop running
def flDmaReleaseAll : Nat → Dma → Option Dma
  | 0, _ => none
  | fuel + 1, s =>
    match s.table.getLast? with
    | none => some s
    | some last => flDmaReleaseAll fuel (flDmaFree last.ptr s)

/-- What the `stop` and `detach` callbacks do here: each writes memory and frees a pointer. -/
def callbacksFree (callbacks : List (Memory × Nat)) (s : Dma) : Dma :=
  callbacks.foldl (fun s c => flDmaFree c.2 { s with mem := c.1 }) s

def flDriversShutdown (fuel : Nat) (callbacks : List (Memory × Nat)) (s : Dma) : Option Dma := do
  let released ← flDmaReleaseAll fuel s
  return { callbacksFree callbacks released with table := [] }

inductive Call where
  | alloc (size answer : Nat)
  | allocDevice (dev : Option Nat) (size answer : Nat)
  | free (ptr : Nat)
  | shutdown (callbacks : List (Memory × Nat))
  | use (mem : Memory)

def handOut (size : Nat) (owner : Option Nat) (held : Multiset DmaRecord) (returned : Nat × Dma) :
    Dma × Multiset DmaRecord :=
  (returned.2, if returned.1 = 0 then held else ⟨returned.1, size, owner⟩ ::ₘ held)

/-- The second component is what the callers hold. -/
def Call.run (fuel : Nat) : Call → Dma × Multiset DmaRecord → Option (Dma × Multiset DmaRecord)
  | .alloc size answer, (s, held) => some (handOut size none held (flDmaAlloc size answer s))
  | .allocDevice dev size answer, (s, held) => some (handOut size dev held (flDmaAllocDevice dev size answer s))
  | .free ptr, (s, held) => some (flDmaFree ptr s, held.filter (·.ptr ≠ ptr))
  | .shutdown callbacks, (s, _) => (flDriversShutdown fuel callbacks s).map (·, 0)
  | .use mem, (s, held) => some ({ s with mem }, held)

def Returns (s : Dma × Multiset DmaRecord) (c : Call) (s' : Dma × Multiset DmaRecord) : Prop :=
  ∃ fuel, c.run fuel s = some s'

/-- The domain allocator does not return the pointer of a live buffer. -/
def Allowed (s : Dma × Multiset DmaRecord) : Call → Prop
  | .alloc _ answer | .allocDevice _ _ answer => ∀ r ∈ s.2, r.ptr ≠ answer
  | _ => True

/-- The events pair up: a free takes one live buffer, and finds it zeroed. -/
inductive Accounts : List DomainEvent → Multiset (Nat × Nat) → Prop where
  | start : Accounts [] 0
  | alloc {log live ptr size} (before : Accounts log live) (fresh : ∀ b ∈ live, b.1 ≠ ptr) :
      Accounts (.alloc ptr size :: log) ((ptr, size) ::ₘ live)
  | free {log live ptr size mem} (before : Accounts log ((ptr, size) ::ₘ live))
      (zeroed : ∀ x, ptr ≤ x → x < ptr + size → mem x = 0) : Accounts (.free ptr mem :: log) live

structure Sound (s : Dma) (held : Multiset DmaRecord) : Prop where
  exact : (s.table : Multiset DmaRecord) = held
  fits : held.card ≤ maxDma
  valid : ∀ r ∈ held, r.ptr ≠ 0
  distinct : (held.map DmaRecord.ptr).Nodup
  accounts : Accounts s.log (held.map DmaRecord.buffer)

theorem Sound.alloc (sound : Sound s held) (dev : Option Nat) (size : Nat) {answer : Nat}
    (fresh : ∀ r ∈ held, r.ptr ≠ answer) :
    (s.table.length < maxDma ∧ size ≠ 0 ∧ answer ≠ 0 ∧ (flDmaAllocDevice dev size answer s).1 = answer ∧
        Sound (flDmaAllocDevice dev size answer s).2 (⟨answer, size, dev⟩ ::ₘ held)) ∨
      ((flDmaAllocDevice dev size answer s).1 = 0 ∧ (flDmaAllocDevice dev size answer s).2.table = s.table ∧
        Sound (flDmaAllocDevice dev size answer s).2 held) := by
  unfold flDmaAllocDevice
  split
  · exact .inr ⟨rfl, rfl, sound⟩
  split
  · exact .inr ⟨rfl, rfl, sound⟩
  next size_pos valid =>
    have bought : Accounts (.alloc answer size :: s.log) ((answer, size) ::ₘ held.map DmaRecord.buffer) := by
      refine .alloc sound.accounts fun b member => ?_
      obtain ⟨r, held_r, rfl⟩ := Multiset.mem_map.mp member
      exact fresh r held_r
    dsimp only
    split
    · exact .inr ⟨rfl, rfl, { sound with accounts := bought.free fun x above below => if_pos ⟨above, below⟩ }⟩
    next room =>
      have table_lt : s.table.length < maxDma := Nat.lt_of_not_le room
      refine .inl ⟨table_lt, size_pos, valid, rfl, ?_, ?_, ?_, ?_, ?_⟩
      · rw [← sound.exact, Multiset.cons_coe, Multiset.coe_eq_coe]
        exact perm_append_singleton _ _
      · rw [Multiset.card_cons, ← sound.exact]
        exact table_lt
      · exact Multiset.forall_mem_cons.mpr ⟨valid, sound.valid⟩
      · rw [Multiset.map_cons, Multiset.nodup_cons]
        refine ⟨fun member => ?_, sound.distinct⟩
        obtain ⟨r, held_r, same⟩ := Multiset.mem_map.mp member
        exact fresh r held_r same
      · rw [Multiset.map_cons]
        exact bought

theorem Sound.flDmaFree_unknown (sound : Sound s held) (unknown : ∀ r ∈ held, r.ptr ≠ ptr) : flDmaFree ptr s = s := by
  have missed : s.table.find? (·.ptr = ptr) = none := by
    refine find?_eq_none.mpr fun r member => ?_
    simpa using unknown r (sound.exact ▸ member)
  rw [flDmaFree, missed, ite_self]

theorem swapDelete_found {table : List DmaRecord} (exact : (table : Multiset DmaRecord) = r ::ₘ live)
    (others : ∀ q ∈ live, q.ptr ≠ r.ptr) :
    table.find? (·.ptr = r.ptr) = some r ∧
      (swapDelete table (table.findIdx (·.ptr = r.ptr)) : Multiset DmaRecord) = live := by
  have member : r ∈ table := Multiset.mem_coe.mp (exact ▸ Multiset.mem_cons_self r live)
  obtain ⟨done, rest, rfl⟩ := append_of_mem member
  have whole : ((done ++ rest : List DmaRecord) : Multiset DmaRecord) = live := by
    refine (Multiset.cons_inj_right r).mp (trans ?_ exact)
    exact Multiset.coe_eq_coe.mpr perm_middle.symm
  have miss : ∀ q ∈ done, q.ptr ≠ r.ptr := fun q before => others q (whole ▸ mem_append_left rest before)
  constructor
  · exact find?_eq_some_iff_append.mpr ⟨by simp, done, rest, rfl, by simpa using miss⟩
  · have index : (done ++ r :: rest).findIdx (·.ptr = r.ptr) = done.length := by
      rw [findIdx_append, findIdx_eq_length_of_false (by simpa using miss), if_neg (lt_irrefl _), findIdx_cons]
      simp
    rw [index, swapDelete_append, ← whole, Multiset.coe_eq_coe]
    exact (lastFirst_perm rest).append_left done

theorem Sound.flDmaFree (sound : Sound s held) (ptr : Nat) : Sound (flDmaFree ptr s) (held.filter (·.ptr ≠ ptr)) := by
  by_cases known : ∃ r ∈ held, r.ptr = ptr
  · obtain ⟨r, member, rfl⟩ := known
    obtain ⟨live, rfl⟩ := Multiset.exists_cons_of_mem member
    have apart := sound.distinct
    rw [Multiset.map_cons, Multiset.nodup_cons] at apart
    have others : ∀ q ∈ live, q.ptr ≠ r.ptr := fun q other same =>
      apart.1 (same ▸ Multiset.mem_map_of_mem DmaRecord.ptr other)
    obtain ⟨found, deleted⟩ := swapDelete_found sound.exact others
    have accounts := sound.accounts
    rw [Multiset.map_cons] at accounts
    rw [Multiset.filter_cons_of_neg _ (by simp), Multiset.filter_eq_self.mpr others, flDmaFree,
      if_neg (sound.valid r member), found]
    refine ⟨deleted, ?_, ?_, apart.2, accounts.free fun x above below => if_pos ⟨above, below⟩⟩
    · exact (Multiset.card_le_card (Multiset.le_cons_self live r)).trans sound.fits
    · exact fun q other => sound.valid q (Multiset.mem_cons_of_mem other)
  · have unknown : ∀ r ∈ held, r.ptr ≠ ptr := fun r member same => known ⟨r, member, same⟩
    rw [sound.flDmaFree_unknown unknown, Multiset.filter_eq_self.mpr unknown]
    exact sound

theorem Sound.release (sound : Sound s held) {last : DmaRecord} (taken : s.table.getLast? = some last) :
    Sound (Dma.flDmaFree last.ptr s) (held.filter (·.ptr ≠ last.ptr)) ∧
      (Dma.flDmaFree last.ptr s).table.length < s.table.length := by
  have freed := sound.flDmaFree last.ptr
  have member : last ∈ held := sound.exact ▸ mem_of_getLast? taken
  refine ⟨freed, ?_⟩
  rw [← Multiset.coe_card, ← Multiset.coe_card, freed.exact, sound.exact]
  refine Multiset.card_lt_card ((Multiset.filter_le _ held).lt_of_ne fun same => ?_)
  exact Multiset.filter_eq_self.mp same last member rfl

theorem Sound.flDmaReleaseAll (sound : Sound s held) (returned : flDmaReleaseAll fuel s = some s') : Sound s' 0 := by
  induction fuel generalizing s held with
  | zero => cases returned
  | succ fuel ih =>
    rw [flDmaReleaseAll] at returned
    cases taken : s.table.getLast? with
    | none =>
      rw [taken] at returned
      obtain rfl := some.inj returned
      have empty : held = 0 := by rw [← sound.exact, getLast?_eq_none_iff.mp taken, Multiset.coe_nil]
      exact empty ▸ sound
    | some last =>
      rw [taken] at returned
      exact ih (sound.flDmaFree last.ptr) returned

theorem Sound.releases (sound : Sound s held) : ∃ fuel s', Dma.flDmaReleaseAll fuel s = some s' := by
  induction count : s.table.length using Nat.strong_induction_on generalizing s held with
  | _ n ih =>
    cases taken : s.table.getLast? with
    | none => exact ⟨1, s, by rw [Dma.flDmaReleaseAll, taken]⟩
    | some last =>
      obtain ⟨freed, shorter⟩ := sound.release taken
      obtain ⟨fuel, s', returned⟩ := ih _ (count ▸ shorter) freed rfl
      exact ⟨fuel + 1, s', by rw [Dma.flDmaReleaseAll, taken]; exact returned⟩

theorem Sound.callbacksFree (sound : Sound s 0) (callbacks : List (Memory × Nat)) :
    Sound (callbacksFree callbacks s) 0 := by
  induction callbacks generalizing s with
  | nil => exact sound
  | cons c rest ih =>
    have written : Sound { s with mem := c.1 } 0 := { sound with }
    exact ih (written.flDmaFree c.2)

theorem Sound.flDriversShutdown (sound : Sound s held) {callbacks : List (Memory × Nat)}
    (returned : flDriversShutdown fuel callbacks s = some s') : Sound s' 0 := by
  obtain ⟨released, empty, finished⟩ := bind_eq_some_iff.mp returned
  obtain rfl := some.inj finished
  have after := (sound.flDmaReleaseAll empty).callbacksFree callbacks
  exact { after with exact := Multiset.coe_nil }

theorem Sound.call {p p' : Dma × Multiset DmaRecord} (sound : Sound p.1 p.2) {c : Call} (ok : Allowed p c)
    (returned : Returns p c p') : Sound p'.1 p'.2 := by
  obtain ⟨s, held⟩ := p
  obtain ⟨fuel, returned⟩ := returned
  have handed (dev : Option Nat) (size answer : Nat) (fresh : ∀ r ∈ held, r.ptr ≠ answer) :
      Sound (flDmaAllocDevice dev size answer s).2 (handOut size dev held (flDmaAllocDevice dev size answer s)).2 := by
    obtain ⟨-, -, valid, answered, grown⟩ | ⟨refused, -, kept⟩ := sound.alloc dev size fresh
    · rw [handOut, answered, if_neg valid]
      exact grown
    · rw [handOut, refused, if_pos rfl]
      exact kept
  cases c with
  | alloc size answer =>
    obtain rfl := some.inj returned
    exact handed none size answer ok
  | allocDevice dev size answer =>
    obtain rfl := some.inj returned
    exact handed dev size answer ok
  | free ptr =>
    obtain rfl := some.inj returned
    exact sound.flDmaFree ptr
  | shutdown callbacks =>
    obtain ⟨done, finished, rfl⟩ := map_eq_some_iff.mp returned
    exact sound.flDriversShutdown finished
  | use mem =>
    obtain rfl := some.inj returned
    exact { sound with }

theorem start_sound (mem : Memory) : Sound (start mem) 0 :=
  ⟨rfl, Nat.zero_le _, fun _ none => absurd none (Multiset.notMem_zero _), Multiset.nodup_zero, .start⟩

theorem dma_records {mem : Memory} (reached : Reached Returns Allowed (start mem, 0) (s, held)) :
    (s.table : Multiset DmaRecord) = held ∧ (held.map DmaRecord.ptr).Nodup ∧
      Accounts s.log (held.map DmaRecord.buffer) ∧
      (∀ ptr, (∀ r ∈ held, r.ptr ≠ ptr) → flDmaFree ptr s = s) ∧
      (∀ ptr, flDmaFree ptr (flDmaFree ptr s) = flDmaFree ptr s) ∧
      (∀ dev size answer, maxDma ≤ s.table.length → (∀ r ∈ held, r.ptr ≠ answer) →
        ∃ s', flDmaAllocDevice dev size answer s = (0, s') ∧ s'.table = s.table ∧
          Accounts s'.log (held.map DmaRecord.buffer)) ∧
      ∀ callbacks, ∃ fuel s', flDriversShutdown fuel callbacks s = some s' ∧ s'.table = [] ∧ Accounts s'.log 0 := by
  have sound : Sound s held := reached.invariant (I := fun p => Sound p.1 p.2) (start_sound mem)
    fun _ _ _ sound ok returned => sound.call ok returned
  refine ⟨sound.exact, sound.distinct, sound.accounts, fun ptr => sound.flDmaFree_unknown, fun ptr => ?_,
    fun dev size answer full fresh => ?_, fun callbacks => ?_⟩
  · exact (sound.flDmaFree ptr).flDmaFree_unknown fun r member => (Multiset.mem_filter.mp member).2
  · obtain ⟨room, -⟩ | ⟨refused, table, kept⟩ := sound.alloc dev size fresh
    · omega
    · exact ⟨_, Prod.ext refused rfl, table, kept.accounts⟩
  · obtain ⟨fuel, released, returned⟩ := sound.releases
    have finished : flDriversShutdown fuel callbacks s =
        some { callbacksFree callbacks released with table := [] } := by
      rw [flDriversShutdown, returned]
      rfl
    exact ⟨fuel, _, finished, rfl, (sound.flDriversShutdown finished).accounts⟩

theorem dma_records_freed : ∃ s, Reached Returns Allowed (start fun _ => 255, 0) (s, {⟨8192, 8, some 1⟩}) ∧
    s.table = [⟨8192, 8, some 1⟩] ∧ Accounts s.log {(8192, 8)} ∧ flDmaFree 4096 s = s := by
  have first : Reached Returns Allowed (start fun _ => 255, 0) (_, {⟨4096, 16, none⟩}) :=
    Reached.start.call (.alloc 16 4096) (by simp [Allowed]) ⟨0, rfl⟩
  have second := first.call (.allocDevice (some 1) 8 8192) (by simp [Allowed]) ⟨0, rfl⟩
  have reached : Reached Returns Allowed (start fun _ => 255, 0) (_, {⟨8192, 8, some 1⟩}) :=
    second.call (.free 4096) trivial ⟨0, rfl⟩
  obtain ⟨-, -, accounts, unknown, -⟩ := dma_records reached
  exact ⟨_, reached, rfl, accounts, unknown 4096 (by simp)⟩

theorem dma_lookups {mem : Memory} (reached : Reached Returns Allowed (start mem, 0) (s, held)) :
    (∀ ptr r, flDmaGetInfo ptr true s = some r ↔ r ∈ held ∧ r.ptr = ptr) ∧
      flDmaAllocationCount s = held.card ∧ held.card ≤ maxDma := by
  have sound : Sound s held := reached.invariant (I := fun p => Sound p.1 p.2) (start_sound mem)
    fun _ _ _ sound ok returned => sound.call ok returned
  refine ⟨fun ptr r => ⟨fun found => ?_, ?_⟩, ?_, sound.fits⟩
  · unfold flDmaGetInfo at found
    split at found
    · cases found
    · exact ⟨sound.exact ▸ mem_of_find?_eq_some found, by simpa using find?_some found⟩
  · rintro ⟨member, rfl⟩
    obtain ⟨live, rfl⟩ := Multiset.exists_cons_of_mem member
    have apart := sound.distinct
    rw [Multiset.map_cons, Multiset.nodup_cons] at apart
    rw [flDmaGetInfo, if_neg (by simp [sound.valid r member])]
    exact (swapDelete_found sound.exact fun q other same =>
      apart.1 (same ▸ Multiset.mem_map_of_mem DmaRecord.ptr other)).1
  · rw [flDmaAllocationCount, ← sound.exact, Multiset.coe_card]

theorem dma_lookups_held : ∃ s, Reached Returns Allowed (start fun _ => 255, 0) (s, {⟨4096, 16, none⟩}) ∧
    flDmaGetInfo 4096 true s = some ⟨4096, 16, none⟩ := by
  have reached : Reached Returns Allowed (start fun _ => 255, 0) (_, {⟨4096, 16, none⟩}) :=
    Reached.start.call (.alloc 16 4096) (by simp [Allowed]) ⟨0, rfl⟩
  exact ⟨_, reached, ((dma_lookups reached).1 4096 _).mpr ⟨Multiset.mem_singleton_self _, rfl⟩⟩

end Dma

end Flinstone.Drivers
