import Flinstone.Lib.Bytes
import Mathlib.Logic.Function.Basic
import Mathlib.Tactic.IntervalCases

/-!
# PCI configuration accessors

The bare-metal accessors of the two `drivers/pci.c`.
-/

namespace Flinstone.Drivers
open Flinstone.Lib List Function BitVec

structure PciFunction where
  bus : BitVec 8
  dev : BitVec 5
  fn : BitVec 3
  deriving DecidableEq

abbrev ConfigSpace := PciFunction → Memory

def ConfigSpace.dword (space : ConfigSpace) (f : PciFunction) (reg : Nat) : BitVec 32 :=
  BitVec.ofNat 32 ((space f).load 4 reg)

def ConfigSpace.setDword (space : ConfigSpace) (f : PciFunction) (reg : Nat) (v : BitVec 32) : ConfigSpace :=
  update space f ((space f).store 4 reg v.toNat)

/-- The hardware, and `s_ecam_base` of `pci.c` and of `arm_plat.c`. -/
structure PciState where
  space : ConfigSpace
  latch : BitVec 32
  window : BitVec 64
  ecamBase : BitVec 64
  plat : { base : BitVec 64 // base ≠ 0 }

namespace PciState

def latched (s : PciState) : PciFunction :=
  ⟨s.latch.extractLsb' 16 8, s.latch.extractLsb' 11 5, s.latch.extractLsb' 8 3⟩

def latchedReg (s : PciState) : Nat := (s.latch.extractLsb' 0 8 &&& 0xFC).toNat

def portOutl (port : Nat) (v : BitVec 32) (s : PciState) : PciState :=
  if port = 0xCF8 then { s with latch := v }
  else if port = 0xCFC ∧ s.latch.msb then { s with space := s.space.setDword s.latched s.latchedReg v }
  else s

def portInl (port : Nat) (s : PciState) : BitVec 32 :=
  if port = 0xCFC ∧ s.latch.msb then s.space.dword s.latched s.latchedReg else 0xFFFFFFFF

def mapped (offset : BitVec 64) : PciFunction :=
  ⟨offset.extractLsb' 20 8, offset.extractLsb' 15 5, offset.extractLsb' 12 3⟩

def mmioRead32 (addr : BitVec 64) (s : PciState) : BitVec 32 :=
  let offset := addr - s.window
  if offset >>> 28 = 0 then s.space.dword (mapped offset) (offset.extractLsb' 0 12).toNat else 0xFFFFFFFF

def mmioWrite32 (addr : BitVec 64) (v : BitVec 32) (s : PciState) : PciState :=
  let offset := addr - s.window
  if offset >>> 28 = 0 then
    { s with space := s.space.setDword (mapped offset) (offset.extractLsb' 0 12).toNat v }
  else s

end PciState

open PciState

structure PciRaw where
  read : (bus dev fn offset : BitVec 8) → PciState → BitVec 32 × PciState
  write : (bus dev fn offset : BitVec 8) → BitVec 32 → PciState → PciState

def pciMakeAddress (bus dev fn offset : BitVec 8) : BitVec 32 :=
  0x80000000#32 ||| bus.setWidth 32 <<< 16 ||| dev.setWidth 32 <<< 11 ||| fn.setWidth 32 <<< 8 |||
    (offset &&& 0xFC).setWidth 32

def pciPortRead32 (bus dev fn offset : BitVec 8) (s : PciState) : BitVec 32 × PciState :=
  let s := s.portOutl 0xCF8 (pciMakeAddress bus dev fn offset)
  (s.portInl 0xCFC, s)

def pciPortWrite32 (bus dev fn offset : BitVec 8) (v : BitVec 32) (s : PciState) : PciState :=
  let s := s.portOutl 0xCF8 (pciMakeAddress bus dev fn offset)
  s.portOutl 0xCFC v

def ecamOffset (bus dev fn offset : BitVec 8) : BitVec 64 :=
  bus.setWidth 64 <<< 20 ||| dev.setWidth 64 <<< 15 ||| fn.setWidth 64 <<< 12 ||| offset.setWidth 64 &&& 0xFFC#64

def pciReadConfigRaw (bus dev fn offset : BitVec 8) (s : PciState) : BitVec 32 × PciState :=
  if s.ecamBase ≠ 0 then (s.mmioRead32 (s.ecamBase + ecamOffset bus dev fn offset), s)
  else pciPortRead32 bus dev fn offset s

def pciWriteConfigRaw (bus dev fn offset : BitVec 8) (v : BitVec 32) (s : PciState) : PciState :=
  if s.ecamBase ≠ 0 then s.mmioWrite32 (s.ecamBase + ecamOffset bus dev fn offset) v
  else pciPortWrite32 bus dev fn offset v s

def armPciEcamDefault : { base : BitVec 64 // base ≠ 0 } := ⟨0x4010000000, by decide⟩

def armPlatGetEcamBase (s : PciState) : BitVec 64 := s.plat.1

def pciEcamRead (bus dev fn offset : BitVec 8) (s : PciState) : BitVec 32 × PciState :=
  let s := if s.ecamBase = 0 then { s with ecamBase := armPlatGetEcamBase s } else s
  if s.ecamBase = 0 then (0xFFFFFFFF, s) else (s.mmioRead32 (s.ecamBase + ecamOffset bus dev fn offset), s)

def pciEcamWrite (bus dev fn offset : BitVec 8) (v : BitVec 32) (s : PciState) : PciState :=
  let s := if s.ecamBase = 0 then { s with ecamBase := armPlatGetEcamBase s } else s
  if s.ecamBase = 0 then s else s.mmioWrite32 (s.ecamBase + ecamOffset bus dev fn offset) v

section
variable (raw : PciRaw) {bits : Nat} (aligned lane : BitVec 8) (bus dev fn offset : BitVec 8)

def readLane (bits : Nat) (s : PciState) : BitVec bits × PciState :=
  let (v, s) := raw.read bus dev fn (offset &&& aligned) s
  ((v >>> (8 * (offset &&& lane).toNat)).setWidth bits, s)

def writeLane (v : BitVec bits) (s : PciState) : PciState :=
  let ali := offset &&& aligned
  let (old, s) := raw.read bus dev fn ali s
  let shift := 8 * (offset &&& lane).toNat
  let mask := (BitVec.allOnes bits).setWidth 32 <<< shift
  let nv := old &&& ~~~mask ||| v.setWidth 32 <<< shift
  raw.write bus dev fn ali nv s

end

inductive PciWidth where
  | w8 | w16 | w32

def PciWidth.bytes : PciWidth → Nat
  | w8 => 1
  | w16 => 2
  | w32 => 4

abbrev PciRead (bits : Nat) : Type := (bus dev fn offset : BitVec 8) → PciState → BitVec bits × PciState

abbrev PciWrite (bits : Nat) : Type := (bus dev fn offset : BitVec 8) → BitVec bits → PciState → PciState

structure PciAccessors where
  read : (w : PciWidth) → PciRead (8 * w.bytes)
  write : (w : PciWidth) → PciWrite (8 * w.bytes)

def PciAccessors.byWidth (read8 : PciRead 8) (read16 : PciRead 16) (read32 : PciRead 32) (write8 : PciWrite 8)
    (write16 : PciWrite 16) (write32 : PciWrite 32) : PciAccessors where
  read
    | .w8 => read8
    | .w16 => read16
    | .w32 => read32
  write
    | .w8 => write8
    | .w16 => write16
    | .w32 => write32

namespace X86Pci

def raw : PciRaw := ⟨pciReadConfigRaw, pciWriteConfigRaw⟩

def pciReadConfig8 (bus dev fn offset : BitVec 8) := readLane raw 0xFFC 3 bus dev fn offset 8
def pciReadConfig16 (bus dev fn offset : BitVec 8) := readLane raw 0xFFC 2 bus dev fn offset 16
def pciReadConfig32 (bus dev fn offset : BitVec 8) := pciReadConfigRaw bus dev fn offset
def pciWriteConfig8 (bus dev fn offset v : BitVec 8) := writeLane raw 0xFFC 3 bus dev fn offset v
def pciWriteConfig16 (bus dev fn offset : BitVec 8) (v : BitVec 16) := writeLane raw 0xFFE 2 bus dev fn offset v
def pciWriteConfig32 (bus dev fn offset : BitVec 8) (v : BitVec 32) := pciWriteConfigRaw bus dev fn offset v

def accessors : PciAccessors :=
  .byWidth pciReadConfig8 pciReadConfig16 pciReadConfig32 pciWriteConfig8 pciWriteConfig16 pciWriteConfig32

end X86Pci

namespace ArmPci

def raw : PciRaw := ⟨pciEcamRead, pciEcamWrite⟩

def pciReadConfig8 (bus dev fn offset : BitVec 8) := readLane raw 0xFFC 3 bus dev fn offset 8
def pciReadConfig16 (bus dev fn offset : BitVec 8) := readLane raw 0xFFC 2 bus dev fn offset 16
def pciReadConfig32 (bus dev fn offset : BitVec 8) := pciEcamRead bus dev fn offset
def pciWriteConfig8 (bus dev fn offset v : BitVec 8) := writeLane raw 0xFFC 3 bus dev fn offset v
def pciWriteConfig16 (bus dev fn offset : BitVec 8) (v : BitVec 16) := writeLane raw 0xFFC 2 bus dev fn offset v
def pciWriteConfig32 (bus dev fn offset : BitVec 8) (v : BitVec 32) := pciEcamWrite bus dev fn offset v

def accessors : PciAccessors :=
  .byWidth pciReadConfig8 pciReadConfig16 pciReadConfig32 pciWriteConfig8 pciWriteConfig16 pciWriteConfig32

end ArmPci

inductive ConfigCall where
  | read (w : PciWidth) (f : PciFunction) (offset : BitVec 8)
  | write (w : PciWidth) (f : PciFunction) (offset : BitVec 8) (v : BitVec (8 * w.bytes))

namespace ConfigCall

def Aligned : ConfigCall → Prop
  | read w _ offset => w.bytes ∣ offset.toNat
  | write w _ offset _ => w.bytes ∣ offset.toNat

def exec (a : PciAccessors) : ConfigCall → PciState → Option Nat × PciState
  | read w f offset, s =>
    let (v, s) := a.read w f.bus (f.dev.setWidth 8) (f.fn.setWidth 8) offset s
    (some v.toNat, s)
  | write w f offset v, s => (none, a.write w f.bus (f.dev.setWidth 8) (f.fn.setWidth 8) offset v s)

def bytes : ConfigCall → ConfigSpace → Option Nat × ConfigSpace
  | read w f offset, space => (some ((space f).load w.bytes offset.toNat), space)
  | write w f offset v, space => (none, update space f ((space f).store w.bytes offset.toNat v.toNat))

end ConfigCall

def answers {σ : Type} (step : ConfigCall → σ → Option Nat × σ) : List ConfigCall → σ → List (Option Nat) × σ
  | [], s => ([], s)
  | call :: rest, s =>
    let (answer, s) := step call s
    let (later, s) := answers step rest s
    (answer :: later, s)

section
variable (f : PciFunction) (offset : BitVec 8) {s : PciState} {v : BitVec 32}

def PciFunction.address : BitVec 32 := pciMakeAddress f.bus (f.dev.setWidth 8) (f.fn.setWidth 8) offset

def PciFunction.ecam : BitVec 64 := ecamOffset f.bus (f.dev.setWidth 8) (f.fn.setWidth 8) offset

theorem latched_address : { s with latch := f.address offset }.latched = f := by
  unfold latched PciFunction.address pciMakeAddress
  congr 1 <;> refine eq_of_getLsbD_eq fun i below => ?_ <;> interval_cases i <;> simp

theorem latchedReg_address : { s with latch := f.address offset }.latchedReg = (offset &&& 0xFC).toNat := by
  have same : (f.address offset).extractLsb' 0 8 &&& 0xFC = offset &&& 0xFC := by
    unfold PciFunction.address pciMakeAddress
    refine eq_of_getLsbD_eq fun i below => ?_
    interval_cases i <;> simp
  exact congrArg BitVec.toNat same

theorem msb_address : (f.address offset).msb = true := by
  have enabled : (0x80000000#32).msb = true := by decide
  unfold PciFunction.address pciMakeAddress
  simp only [msb_or, enabled, Bool.true_or]

theorem mapped_ecam : mapped (f.ecam offset) = f := by
  unfold mapped PciFunction.ecam ecamOffset
  congr 1 <;> refine eq_of_getLsbD_eq fun i below => ?_ <;> interval_cases i <;> simp

theorem ecam_reg : ((f.ecam offset).extractLsb' 0 12).toNat = (offset &&& 0xFC).toNat := by
  have same : (f.ecam offset).extractLsb' 0 12 = (offset &&& 0xFC).setWidth 12 := by
    unfold PciFunction.ecam ecamOffset
    refine eq_of_getLsbD_eq fun i below => ?_
    interval_cases i <;> simp
  rw [same, toNat_setWidth_of_le (by decide)]

theorem ecam_inside : f.ecam offset >>> 28 = 0 := by
  unfold PciFunction.ecam ecamOffset
  refine eq_of_getLsbD_eq fun i below => ?_
  interval_cases i <;> simp

end

/-- What both accessors rest on: whole dwords are read and written where they are. -/
structure Dwords (raw : PciRaw) (I : PciState → Prop) : Prop where
  read : ∀ f offset s, I s → ∃ s', raw.read f.bus (f.dev.setWidth 8) (f.fn.setWidth 8) offset s =
    (s.space.dword f (offset &&& 0xFC).toNat, s') ∧ s'.space = s.space ∧ I s'
  write : ∀ f offset v s, I s → ∃ s', raw.write f.bus (f.dev.setWidth 8) (f.fn.setWidth 8) offset v s = s' ∧
    s'.space = s.space.setDword f (offset &&& 0xFC).toNat v ∧ I s'

section
variable {f : PciFunction} {offset : BitVec 8} {s : PciState} {v : BitVec 32}

theorem mmioRead32_ecam (here : s.window = s.ecamBase) :
    s.mmioRead32 (s.ecamBase + f.ecam offset) = s.space.dword f (offset &&& 0xFC).toNat := by
  unfold mmioRead32
  rw [here, BitVec.add_comm, add_sub_cancel, if_pos (ecam_inside f offset), mapped_ecam, ecam_reg]

theorem mmioWrite32_ecam (here : s.window = s.ecamBase) :
    s.mmioWrite32 (s.ecamBase + f.ecam offset) v =
      { s with space := s.space.setDword f (offset &&& 0xFC).toNat v } := by
  unfold mmioWrite32
  rw [here, BitVec.add_comm, add_sub_cancel, if_pos (ecam_inside f offset), mapped_ecam, ecam_reg]

theorem dwords_port : Dwords X86Pci.raw fun s => s.ecamBase = 0 where
  read f offset s legacy := by
    refine ⟨{ s with latch := f.address offset }, ?_, rfl, legacy⟩
    change pciReadConfigRaw .. = _
    unfold pciReadConfigRaw pciPortRead32
    rw [if_neg (not_not.mpr legacy)]
    change (portInl 0xCFC { s with latch := f.address offset }, _) = _
    rw [portInl, if_pos ⟨rfl, msb_address f offset⟩, latched_address, latchedReg_address]
    rfl
  write f offset v s legacy := by
    refine ⟨_, rfl, ?_⟩
    change space (pciWriteConfigRaw ..) = _ ∧ ecamBase (pciWriteConfigRaw ..) = 0
    unfold pciWriteConfigRaw pciPortWrite32
    rw [if_neg (not_not.mpr legacy)]
    change space (portOutl 0xCFC v { s with latch := f.address offset }) = _ ∧
      ecamBase (portOutl 0xCFC v { s with latch := f.address offset }) = 0
    rw [portOutl, if_neg (by decide), if_pos ⟨rfl, msb_address f offset⟩, latched_address, latchedReg_address]
    exact ⟨rfl, legacy⟩

theorem dwords_ecam : Dwords X86Pci.raw fun s => s.ecamBase ≠ 0 ∧ s.window = s.ecamBase where
  read f offset s mapped := by
    refine ⟨s, ?_, rfl, mapped⟩
    change pciReadConfigRaw .. = _
    rw [pciReadConfigRaw, if_pos mapped.1]
    exact congrArg (·, s) (mmioRead32_ecam mapped.2)
  write f offset v s mapped := by
    refine ⟨{ s with space := s.space.setDword f (offset &&& 0xFC).toNat v }, ?_, rfl, mapped⟩
    change pciWriteConfigRaw .. = _
    rw [pciWriteConfigRaw, if_pos mapped.1]
    exact mmioWrite32_ecam mapped.2

def armBase (s : PciState) : BitVec 64 := if s.ecamBase = 0 then s.plat.1 else s.ecamBase

-- the base is set once, by the first access
theorem armBase_spec (s : PciState) :
    (if s.ecamBase = 0 then { s with ecamBase := armPlatGetEcamBase s } else s) = { s with ecamBase := armBase s } ∧
      armBase s ≠ 0 := by
  unfold armBase armPlatGetEcamBase
  split
  · exact ⟨rfl, s.plat.2⟩
  · next set => exact ⟨rfl, set⟩

theorem armBase_set (s : PciState) (space : ConfigSpace) :
    armBase { s with space, ecamBase := armBase s } = armBase s := if_neg (armBase_spec s).2

theorem dwords_arm : Dwords ArmPci.raw fun s => s.window = armBase s where
  read f offset s mapped := by
    refine ⟨{ s with ecamBase := armBase s }, ?_, rfl, mapped.trans (armBase_set s s.space).symm⟩
    change pciEcamRead .. = _
    unfold pciEcamRead
    simp only [(armBase_spec s).1]
    rw [if_neg (armBase_spec s).2]
    exact congrArg (·, _) (mmioRead32_ecam (s := { s with ecamBase := armBase s }) mapped)
  write f offset v s mapped := by
    refine ⟨{ s with space := s.space.setDword f (offset &&& 0xFC).toNat v, ecamBase := armBase s }, ?_, rfl,
      mapped.trans (armBase_set s _).symm⟩
    change pciEcamWrite .. = _
    unfold pciEcamWrite
    simp only [(armBase_spec s).1]
    rw [if_neg (armBase_spec s).2]
    exact mmioWrite32_ecam (s := { s with ecamBase := armBase s }) mapped

end

/-! ## Lanes of a dword -/

theorem ofNat_div_pow {n : Nat} (x : BitVec n) (i : Nat) :
    BitVec.ofNat 8 (x.toNat / 256 ^ i) = x.extractLsb' (8 * i) 8 := by
  rw [extractLsb', Nat.shiftRight_eq_div_pow, pow_mul]
  rfl

theorem toNat_dword (space : ConfigSpace) (f : PciFunction) (reg : Nat) :
    (space.dword f reg).toNat = (space f).load 4 reg := Nat.mod_eq_of_lt (Memory.load_lt (n := 4))

theorem insert_bytes {w k : Nat} (old : BitVec 32) (v : BitVec (8 * w)) (inside : k + w ≤ 4) {i : Nat} (byte : i < 4) :
    (old &&& ~~~((allOnes (8 * w)).setWidth 32 <<< (8 * k)) |||
          v.setWidth 32 <<< (8 * k)).extractLsb' (8 * i) 8 =
      if k ≤ i ∧ i < k + w then v.extractLsb' (8 * (i - k)) 8 else old.extractLsb' (8 * i) 8 := by
  refine eq_of_getLsbD_eq fun j below => ?_
  split
  · next here =>
      have place : 8 * i + j - 8 * k = 8 * (i - k) + j := by omega
      simp only [getLsbD_extractLsb', getLsbD_or, getLsbD_and, getLsbD_not,
        getLsbD_shiftLeft, getLsbD_setWidth, getLsbD_allOnes, place, below]
      simp [show 8 * i + j < 32 by omega, show ¬ 8 * i + j < 8 * k by omega, show 8 * (i - k) + j < 32 by omega,
        show 8 * (i - k) + j < 8 * w by omega]
  · next apart =>
      by_cases lower : 8 * i + j < 8 * k
      · simp [lower, show 8 * i + j < 32 by omega]
      · have beyond : 8 * w ≤ 8 * i + j - 8 * k := by omega
        simp [lower, show 8 * i + j < 32 by omega, show ¬ 8 * i + j - 8 * k < 8 * w by omega,
          getLsbD_of_ge v _ beyond]

section
variable {raw : PciRaw} {I : PciState → Prop} {f : PciFunction} {aligned lane offset : BitVec 8} {w : Nat}
  {s : PciState}

theorem Dwords.readLane (served : Dwords raw I) (holds : I s) (same : offset &&& aligned &&& 0xFC = offset &&& 0xFC)
    (split : (offset &&& 0xFC).toNat + (offset &&& lane).toNat = offset.toNat)
    (inside : (offset &&& lane).toNat + w ≤ 4) :
    ∃ s', Drivers.readLane raw aligned lane f.bus (f.dev.setWidth 8) (f.fn.setWidth 8) offset (8 * w) s =
      (BitVec.ofNat (8 * w) ((s.space f).load w offset.toNat), s') ∧ s'.space = s.space ∧ I s' := by
  obtain ⟨s', read, kept, holds'⟩ := served.read f (offset &&& aligned) s holds
  refine ⟨s', ?_, kept, holds'⟩
  rw [Drivers.readLane, read, same]
  refine congrArg (·, s') (eq_of_toNat_eq ?_)
  rw [toNat_setWidth, toNat_ushiftRight, toNat_dword, Nat.shiftRight_eq_div_pow, toNat_ofNat,
    pow_mul, pow_mul]
  have taken : (s.space f).load 4 (offset &&& 0xFC).toNat / 256 ^ (offset &&& lane).toNat % 256 ^ w =
      (s.space f).load w ((offset &&& 0xFC).toNat + (offset &&& lane).toNat) := Memory.load_lane inside
  rw [split] at taken
  exact taken.trans (Nat.mod_eq_of_lt Memory.load_lt).symm

theorem Dwords.writeLane (served : Dwords raw I) (holds : I s) (same : offset &&& aligned &&& 0xFC = offset &&& 0xFC)
    (split : (offset &&& 0xFC).toNat + (offset &&& lane).toNat = offset.toNat)
    (inside : (offset &&& lane).toNat + w ≤ 4)
    (v : BitVec (8 * w)) :
    ∃ s', Drivers.writeLane raw aligned lane f.bus (f.dev.setWidth 8) (f.fn.setWidth 8) offset v s = s' ∧
      s'.space = update s.space f ((s.space f).store w offset.toNat v.toNat) ∧ I s' := by
  obtain ⟨s₁, read, kept, holds₁⟩ := served.read f (offset &&& aligned) s holds
  refine ⟨_, rfl, ?_⟩
  rw [Drivers.writeLane]
  simp only [read]
  obtain ⟨s₂, written, stored, holds₂⟩ := served.write f (offset &&& aligned) _ s₁ holds₁
  rw [written]
  refine ⟨stored.trans ?_, holds₂⟩
  rw [kept, same, ConfigSpace.setDword]
  refine congrArg (update s.space f) ?_
  rw [← split]
  refine Memory.store_lane inside fun i byte => ?_
  rw [ofNat_div_pow, insert_bytes _ _ inside byte, ofNat_div_pow]
  split
  · rfl
  · rw [← ofNat_div_pow, toNat_dword, Memory.load_byte byte]

end

def Serves (a : PciAccessors) (I : PciState → Prop) : Prop :=
  ∀ call : ConfigCall, call.Aligned → ∀ s, I s →
    ∃ s', call.exec a s = ((call.bytes s.space).1, s') ∧ s'.space = (call.bytes s.space).2 ∧ I s'

section
variable {raw : PciRaw} {I : PciState → Prop} {a : PciAccessors} {offset : BitVec 8} {s : PciState}

theorem lane8 : ∀ offset : BitVec 8, offset &&& 0xFFC &&& 0xFC = offset &&& 0xFC ∧
    (offset &&& 0xFC).toNat + (offset &&& 3).toNat = offset.toNat ∧ (offset &&& 3).toNat + 1 ≤ 4 := by decide

theorem lane16 : ∀ offset : BitVec 8, 2 ∣ offset.toNat → offset &&& 0xFFE &&& 0xFC = offset &&& 0xFC ∧
    (offset &&& 0xFC).toNat + (offset &&& 2).toNat = offset.toNat ∧ (offset &&& 2).toNat + 2 ≤ 4 := by decide

theorem lane32 : ∀ offset : BitVec 8, 4 ∣ offset.toNat → offset &&& 0xFC = offset := by decide

theorem exec_read {w : PciWidth} {f : PciFunction} (read : ∃ s', a.read w f.bus (f.dev.setWidth 8) (f.fn.setWidth 8)
      offset s = (BitVec.ofNat (8 * w.bytes) ((s.space f).load w.bytes offset.toNat), s') ∧ s'.space = s.space ∧ I s') :
    ∃ s', (ConfigCall.read w f offset).exec a s = (some ((s.space f).load w.bytes offset.toNat), s') ∧
      s'.space = s.space ∧ I s' := by
  obtain ⟨s', read, kept, holds⟩ := read
  refine ⟨s', ?_, kept, holds⟩
  rw [ConfigCall.exec, read]
  refine congrArg (fun n => (some n, s')) ?_
  rw [toNat_ofNat, pow_mul]
  exact Nat.mod_eq_of_lt Memory.load_lt

theorem exec_write {w : PciWidth} {f : PciFunction} {offset : BitVec 8} {v : BitVec (8 * w.bytes)}
    (write : ∃ s', a.write w f.bus (f.dev.setWidth 8) (f.fn.setWidth 8) offset v s = s' ∧
      s'.space = update s.space f ((s.space f).store w.bytes offset.toNat v.toNat) ∧ I s') :
    ∃ s', (ConfigCall.write w f offset v).exec a s = (none, s') ∧
      s'.space = update s.space f ((s.space f).store w.bytes offset.toNat v.toNat) ∧ I s' := by
  obtain ⟨s', write, kept⟩ := write
  exact ⟨s', congrArg (none, ·) write, kept⟩

theorem serves_of_dwords (served : Dwords raw I) (half : BitVec 8)
    (keeps : ∀ offset, offset &&& half &&& 0xFC = offset &&& 0xFC) :
    Serves (.byWidth (readLane raw 0xFFC 3 · · · · 8) (readLane raw 0xFFC 2 · · · · 16) raw.read (writeLane raw 0xFFC 3)
      (writeLane raw half 2) raw.write) I := by
  intro call aligned s holds
  cases call with
  | read w f offset =>
    cases w with
    | w8 =>
      obtain ⟨same, split, inside⟩ := lane8 offset
      exact exec_read (served.readLane holds same split inside)
    | w16 =>
      obtain ⟨-, split, inside⟩ := lane16 offset aligned
      exact exec_read (served.readLane holds (lane8 offset).1 split inside)
    | w32 =>
      have read := served.read f offset s holds
      rw [lane32 offset aligned] at read
      exact exec_read read
  | write w f offset v =>
    cases w with
    | w8 =>
      obtain ⟨same, split, inside⟩ := lane8 offset
      exact exec_write (served.writeLane holds same split inside v)
    | w16 =>
      obtain ⟨-, split, inside⟩ := lane16 offset aligned
      exact exec_write (served.writeLane holds (keeps offset) split inside v)
    | w32 =>
      have write := served.write f offset v s holds
      rw [lane32 offset aligned] at write
      exact exec_write write

theorem Serves.answers (serves : Serves a I) {calls : List ConfigCall} (aligned : ∀ call ∈ calls, call.Aligned)
    (holds : I s) : (answers (ConfigCall.exec a) calls s).1 = (answers ConfigCall.bytes calls s.space).1 ∧
      (answers (ConfigCall.exec a) calls s).2.space = (answers ConfigCall.bytes calls s.space).2 := by
  induction calls generalizing s with
  | nil => exact ⟨rfl, rfl⟩
  | cons call rest ih =>
    obtain ⟨here, later⟩ := forall_mem_cons.mp aligned
    obtain ⟨s', ran, space, holds'⟩ := serves call here s holds
    obtain ⟨same, ends⟩ := ih later holds'
    rw [space] at same ends
    simp only [answers, ran]
    exact ⟨congrArg (_ :: ·) same, ends⟩

end

theorem pci_config_accessors (calls : List ConfigCall) (aligned : ∀ call ∈ calls, call.Aligned)
    (port ecam arm : PciState) (space : ConfigSpace) (port_space : port.space = space) (ecam_space : ecam.space = space)
    (arm_space : arm.space = space) (legacy : port.ecamBase = 0) (set : ecam.ecamBase ≠ 0)
    (window : ecam.window = ecam.ecamBase) (arm_window : arm.window = armBase arm) :
    let bytes := answers ConfigCall.bytes calls space
    let viaPort := answers (ConfigCall.exec X86Pci.accessors) calls port
    let viaEcam := answers (ConfigCall.exec X86Pci.accessors) calls ecam
    let viaArm := answers (ConfigCall.exec ArmPci.accessors) calls arm
    (viaPort.1 = bytes.1 ∧ viaPort.2.space = bytes.2) ∧ (viaEcam.1 = bytes.1 ∧ viaEcam.2.space = bytes.2) ∧
      (viaArm.1 = bytes.1 ∧ viaArm.2.space = bytes.2) := by
  have port_serves : Serves X86Pci.accessors _ := serves_of_dwords dwords_port 0xFFE (by decide)
  have ecam_serves : Serves X86Pci.accessors _ := serves_of_dwords dwords_ecam 0xFFE (by decide)
  have arm_serves : Serves ArmPci.accessors _ := serves_of_dwords dwords_arm 0xFFC (by decide)
  subst port_space
  refine ⟨port_serves.answers aligned legacy, ?_, ?_⟩
  · rw [← ecam_space]
    exact ecam_serves.answers aligned ⟨set, window⟩
  · rw [← arm_space]
    exact arm_serves.answers aligned arm_window

theorem pci_config_halfword :
    let calls := [ConfigCall.write .w16 ⟨0, 3, 1⟩ 6 0x1234, .read .w8 ⟨0, 3, 1⟩ 7]
    let state (window base : BitVec 64) : PciState := ⟨fun _ _ => 0, 0, window, base, armPciEcamDefault⟩
    (answers (ConfigCall.exec X86Pci.accessors) calls (state 0 0)).1 = [none, some 0x12] ∧
      (answers (ConfigCall.exec X86Pci.accessors) calls (state 0xB0000000 0xB0000000)).1 = [none, some 0x12] ∧
      (answers (ConfigCall.exec ArmPci.accessors) calls (state 0x4010000000 0)).1 = [none, some 0x12] := by
  intro calls state
  have aligned : ∀ call ∈ calls, call.Aligned := by
    refine forall_mem_cons.mpr ⟨?_, forall_mem_cons.mpr ⟨?_, nofun⟩⟩
    · exact (by decide : 2 ∣ 6)
    · exact (by decide : 1 ∣ 7)
  have bytes : (answers ConfigCall.bytes calls fun _ _ => 0).1 = [none, some 0x12] := by decide
  obtain ⟨port, ecam, arm⟩ := pci_config_accessors calls aligned (state 0 0) (state 0xB0000000 0xB0000000)
    (state 0x4010000000 0) _ rfl rfl rfl rfl (by decide) rfl rfl
  exact ⟨port.1.trans bytes, ecam.1.trans bytes, arm.1.trans bytes⟩

end Flinstone.Drivers
