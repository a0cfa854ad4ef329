import Flinstone.Drivers.Block

/-! # One sector after the other -/

namespace Flinstone.Drivers
open Flinstone.Lib List

structure SectorCall where
  writes : Bool
  out : Bool
  deriving DecidableEq

namespace SectorCall

def run (call : SectorCall) (f : Nat) (s : Devfs) : Option Invocation × Devfs :=
  if call.writes then flDevfsWrite f (sectorReply call.out 0) s else flDevfsRead f (sectorReply call.out 0) s

def Allowed (call : SectorCall) (flags : BitVec 32) (ops : DevfsOps) : Prop :=
  if call.writes then flags &&& 2 ≠ 0 ∧ ops.write.isSome else flags &&& 1 ≠ 0 ∧ ops.read.isSome

instance (call : SectorCall) (flags : BitVec 32) (ops : DevfsOps) : Decidable (call.Allowed flags ops) :=
  inferInstanceAs (Decidable
    (if call.writes then flags &&& 2 ≠ 0 ∧ ops.write.isSome else flags &&& 1 ≠ 0 ∧ ops.read.isSome))

end SectorCall

def units (f : Nat) : List SectorCall → Devfs → List (Option (BitVec 32))
  | [], _ => []
  | call :: more, s => ((call.run f s).1.bind Invocation.unit) :: units f more (call.run f s).2

def DevfsOps.UnitBased (ops : DevfsOps) : Prop := ops.byteRead = none ∧ ops.byteWrite = none

def OpenAt (s : Devfs) (f : Nat) (node : DevfsNode) (flags : BitVec 32) (n : Nat) : Prop :=
  ∃ place, s.files f = ⟨some place, BitVec.ofNat 64 (sectorSize * n), flags⟩ ∧ s.nodes place = node

theorem unit_of_pos (n : Nat) : (BitVec.ofNat 64 (sectorSize * n) / 512).setWidth 32 = BitVec.ofNat 32 n := by
  apply BitVec.eq_of_toNat_eq
  rw [BitVec.toNat_setWidth, BitVec.toNat_udiv, BitVec.toNat_ofNat, BitVec.toNat_ofNat]
  have start : sectorSize * n % 2 ^ 64 = 512 * (n % 2 ^ 55) := Nat.mul_mod_mul_left 512 n (2 ^ 55)
  have whole : (512 : BitVec 64).toNat = 512 := rfl
  rw [start, whole, Nat.mul_div_cancel_left _ (by omega), Nat.mod_mod_of_dvd _ (by decide)]

variable {f n i : Nat} {s : Devfs} {node : DevfsNode} {flags : BitVec 32} {calls : List SectorCall}

theorem transfer_at {mode : BitVec 32} (located : OpenAt s f node flags n) (allowed : flags &&& mode ≠ 0)
    {choose : DevfsNode → BitVec 64 → Option Invocation} {function : Nat}
    (block : choose node = select none (some function) node) (out : Bool) :
    (transfer mode choose f (sectorReply out 0) s).1.bind Invocation.unit = some (BitVec.ofNat 32 n) ∧
      OpenAt (transfer mode choose f (sectorReply out 0) s).2 f node flags (n + out.toNat) := by
  obtain ⟨place, file, rfl⟩ := located
  have success : (sectorReply out 0).rc = 0 := rfl
  have moved : BitVec.ofNat 64 (sectorSize * n) + (sectorReply out 0).moved =
      BitVec.ofNat 64 (sectorSize * (n + out.toNat)) := by
    cases out with
    | false => exact add_zero _
    | true => exact (BitVec.ofNat_add ..).symm
  have done : transfer mode choose f (sectorReply out 0) s =
      (some ⟨function, (s.nodes place).dev, some (BitVec.ofNat 32 n)⟩,
        s.setFile f ⟨some place, BitVec.ofNat 64 (sectorSize * (n + out.toNat)), flags⟩) := by
    rw [transfer, file]
    dsimp only
    rw [if_neg allowed, block, select, unit_of_pos]
    dsimp only
    rw [if_pos success, moved]
  rw [done]
  exact ⟨rfl, place, Function.update_self .., rfl⟩

theorem SectorCall.run_at {call : SectorCall}
    (located : OpenAt s f node flags n) (unitBased : node.ops.UnitBased) (allowed : call.Allowed flags node.ops) :
    (call.run f s).1.bind Invocation.unit = some (BitVec.ofNat 32 n) ∧
      OpenAt (call.run f s).2 f node flags (n + call.out.toNat) := by
  unfold Allowed at allowed
  unfold run
  split_ifs at allowed ⊢
  · obtain ⟨function, write⟩ := Option.isSome_iff_exists.mp allowed.2
    have block : writeOp node = select none (some function) node := by rw [writeOp, unitBased.2, write]
    exact transfer_at located allowed.1 block call.out
  · obtain ⟨function, read⟩ := Option.isSome_iff_exists.mp allowed.2
    have block : readOp node = select none (some function) node := by rw [readOp, unitBased.1, read]
    exact transfer_at located allowed.1 block call.out

def outs (calls : List SectorCall) (i : Nat) : Nat := (calls.take i).countP SectorCall.out

theorem units_at (located : OpenAt s f node flags n) (unitBased : node.ops.UnitBased)
    (allowed : ∀ call ∈ calls, call.Allowed flags node.ops) (inside : i < calls.length) :
    (units f calls s)[i]? = some (some (BitVec.ofNat 32 (n + outs calls i))) := by
  induction calls generalizing s n i with
  | nil => cases inside
  | cons call more ih =>
    obtain ⟨unit, after⟩ := SectorCall.run_at located unitBased (allowed call (mem_cons_self ..))
    cases i with
    | zero => rw [units, getElem?_cons_zero, unit]; rfl
    | succ i =>
      have later := fun other member => allowed other (mem_cons_of_mem call member)
      rw [units, getElem?_cons_succ, ih after later (Nat.lt_of_succ_lt_succ inside)]
      have count : outs (call :: more) (i + 1) = call.out.toNat + outs more i := by
        rw [outs, take_succ_cons, countP_cons, add_comm]
        cases call.out <;> rfl
      rw [count, add_assoc]

theorem outs_succ (inside : i < calls.length) : outs calls (i + 1) = outs calls i + calls[i].out.toNat := by
  rw [outs, outs, take_add_one, getElem?_eq_getElem inside, Option.toList_some, countP_append, countP_singleton]
  cases calls[i].out <;> rfl

/-- Call i is on unit i exactly when every call but the last passes a pointer and the numbers fit 32 bits. -/
theorem sequential_units_iff (s₀ s : Devfs) (path : Text) (flags : BitVec 32) (f : Nat) (place : Place)
    (found : s₀.find path = some place) (opened : flDevfsOpen path flags f s₀ = (true, s))
    (unitBased : (s₀.nodes place).ops.UnitBased) (calls : List SectorCall)
    (allowed : ∀ call ∈ calls, call.Allowed flags (s₀.nodes place).ops) :
    (∀ i < calls.length, ∃ unit, (units f calls s)[i]? = some (some unit) ∧ unit.toNat = i) ↔
      (∀ call ∈ calls.dropLast, call.out) ∧ calls.length ≤ 2 ^ 32 := by
  have located : OpenAt s f (s₀.nodes place) flags 0 := by
    rw [flDevfsOpen, found] at opened
    obtain rfl := (Prod.mk.inj opened).2
    exact ⟨place, Function.update_self .., rfl⟩
  have unit {i : Nat} (inside : i < calls.length) := units_at located unitBased allowed inside
  constructor
  · intro sequential
    have counted {i : Nat} (inside : i < calls.length) : outs calls i % 2 ^ 32 = i := by
      obtain ⟨number, here, same⟩ := sequential i inside
      rw [unit inside, zero_add] at here
      obtain rfl := Option.some.inj (Option.some.inj here)
      exact same
    refine ⟨fun call member => ?_, ?_⟩
    · obtain ⟨i, below, rfl⟩ := getElem_of_mem member
      rw [length_dropLast] at below
      have inside : i < calls.length := by omega
      have now := counted inside
      have next := counted (show i + 1 < calls.length by omega)
      rw [outs_succ inside] at next
      rw [getElem_dropLast]
      cases out : calls[i].out with
      | true => rfl
      | false =>
        rw [out, Bool.toNat_false, add_zero] at next
        omega
    · by_contra many
      have last := counted (show 2 ^ 32 < calls.length by omega)
      omega
  · rintro ⟨pointers, few⟩ i inside
    have counted : ∀ j ≤ i, outs calls j = j := by
      intro j below
      induction j with
      | zero => rfl
      | succ j ih =>
        have before : j < calls.dropLast.length := by rw [length_dropLast]; omega
        have pointer := pointers _ (getElem_mem before)
        rw [getElem_dropLast] at pointer
        rw [outs_succ (show j < calls.length by omega), ih (by omega), pointer]
        rfl
    refine ⟨_, unit inside, ?_⟩
    rw [BitVec.toNat_ofNat, zero_add, counted i le_rfl]
    exact Nat.mod_eq_of_lt (by omega)

def blkDevfs : Devfs where
  nodes := fun _ => ⟨"/dev/blk0".toList, 1, ⟨some 1, some 2, none, none, some 3⟩, 0⟩
  count := 1
  bounded := by decide
  files := fun _ => ⟨none, 0, 0⟩
  serial := 1
  opened := fun _ => none

def blkOpened : Devfs := (flDevfsOpen "/dev/blk0".toList 3 0 blkDevfs).2

def mixedCalls : List SectorCall := [⟨false, true⟩, ⟨true, true⟩, ⟨false, false⟩]

theorem sequential_units_mixed : ∃ unit, (units 0 mixedCalls blkOpened)[2]? = some (some unit) ∧ unit.toNat = 2 :=
  (sequential_units_iff blkDevfs blkOpened "/dev/blk0".toList 3 0 ⟨0, by decide⟩ (by decide) rfl ⟨rfl, rfl⟩ mixedCalls
    (by decide)).mpr ⟨by decide, by decide⟩ 2 (by decide)

theorem sequential_units_stay : units 0 [⟨false, false⟩, ⟨false, false⟩] blkOpened = [some 0, some 0] := by
  decide +kernel

end Flinstone.Drivers
