import Flinstone.Vm.Stack

/-!
# The virtual PCI configuration space

Ports 0xCF8 and 0xCFC of `vm_io.c`.
-/

namespace Flinstone.Vm
open Flinstone.Lib Flinstone.Sys BitVec Option

variable {n : Nat} {W : Type}

inductive PciAccess where
  | address (value : Word)
  | write (value : Word)
  | read

def pciAccess (env : Env W) (vm : VmState n W) : PciAccess → Except Stop (VmState n W)
  | .address value => vmIoOut env 0xCF8 value 4 vm
  | .write value => vmIoOut env 0xCFC value 4 vm
  | .read => .ok (vmIoIn env 0xCFC 4 vm).2

def pciRun (env : Env W) (start : VmState n W) : List PciAccess → Except Stop (VmState n W)
  | [] => .ok start
  | access :: earlier => pciRun env start earlier >>= fun vm => pciAccess env vm access

structure PciPlace where
  device : Fin 4
  register : Fin 64
  deriving DecidableEq

def pciPlace (addr : Word) : Option PciPlace :=
  if selected : addr.msb = true ∧ pciBus addr = 0 ∧ pciDev addr < 4 then
    some ⟨⟨pciDev addr, selected.2.2⟩, Fin.ofNat 64 (pciReg addr)⟩
  else none

def pciLatch : List PciAccess → Word
  | [] => 0
  | .address value :: _ => value
  | _ :: earlier => pciLatch earlier

def lastWritten (place : PciPlace) : List PciAccess → Option Word
  | [] => none
  | .write value :: earlier =>
    if pciPlace (pciLatch earlier) = some place then some value else lastWritten place earlier
  | _ :: earlier => lastWritten place earlier

namespace PciPlace

def offset (place : PciPlace) : Nat := place.device * 256 + place.register * 4

theorem offset_lt (place : PciPlace) : place.offset + 4 ≤ 1024 := by
  unfold offset
  omega

theorem offset_apart {place other : PciPlace} (apart : place ≠ other) :
    place.offset + 4 ≤ other.offset ∨ other.offset + 4 ≤ place.offset := by
  have differ : place.device.val ≠ other.device.val ∨ place.register.val ≠ other.register.val := by
    by_contra same
    push Not at same
    cases place
    cases other
    simp_all [Fin.ext_iff]
  unfold offset
  omega

def word (cfg : PciCfg) (place : PciPlace) : Word :=
  wordOf (List.ofFn fun k : Fin 4 => cfg ⟨place.offset + k, by have := place.offset_lt; omega⟩)

def powerOn (place : PciPlace) : Word := place.word pciPowerOn

end PciPlace

/-! ## With every index checked

A byte of `s_pci_cfg` is read and written at the index that the source computes, and an index outside of the buffer
stops the model. -/

def vmIoInPciChecked (io : VmIo) : Except Stop Word :=
  if io.pciAddr.msb = false then .ok 0xFFFFFFFF
  else
    match io.pciCfg with
    | none => .ok 0xFFFFFFFF
    | some cfg =>
      if pciBus io.pciAddr ≠ 0 ∨ 4 ≤ pciDev io.pciAddr then .ok 0xFFFFFFFF
      else if pciReg io.pciAddr * 4 + 4 ≤ 256 then
        (copyOut cfg (pciDev io.pciAddr * 256 + pciReg io.pciAddr * 4) 4).map wordOf
      else .ok 0

def pciWriteChecked (io : VmIo) (value : Word) : Except Stop VmIo :=
  match io.pciCfg with
  | none => .ok io
  | some cfg =>
    if pciBus io.pciAddr = 0 ∧ pciDev io.pciAddr < 4 ∧ pciReg io.pciAddr * 4 + 4 ≤ 256 then
      (copyIn cfg (pciDev io.pciAddr * 256 + pciReg io.pciAddr * 4) (bytesOf value 4)).map fun cfg =>
        { io with pciCfg := some cfg }
    else .ok io

theorem pciReg_lt (addr : Word) : pciReg addr < 64 := Nat.mod_lt _ (by decide)

theorem pciSelected_eq (addr : Word) :
    pciSelected addr = (pciPlace addr).map fun place => ⟨place.offset, by have := place.offset_lt; omega⟩ := by
  unfold pciSelected pciPlace
  split
  · next selected =>
      have small : pciReg addr % 64 = pciReg addr := Nat.mod_eq_of_lt (pciReg_lt addr)
      simp [PciPlace.offset, small]
  · rfl

variable {cfg : PciCfg} {addr : Word}

variable (io : VmIo)

theorem vmIoInPci_eq (allocated : io.pciCfg = some cfg) :
    vmIoInPci io = (pciPlace io.pciAddr).elim 0xFFFFFFFF (PciPlace.word cfg) := by
  unfold vmIoInPci
  rw [pciSelected_eq, allocated]
  cases pciPlace io.pciAddr with
  | none => rfl
  | some place => rfl

theorem pciWrite_eq (value : Word) (allocated : io.pciCfg = some cfg) : pciWrite io value = { io with
      pciCfg := some ((pciPlace io.pciAddr).elim cfg fun place => overwrite cfg place.offset (bytesOf value 4)) } := by
  unfold pciWrite
  rw [pciSelected_eq]
  cases pciPlace io.pciAddr with
  | none => simp [← allocated]
  | some place =>
    simp only [map_some, allocated, elim_some]
    congr 2
    funext i
    unfold overwrite
    by_cases above : place.offset ≤ i.val
    · by_cases below : i.val < place.offset + 4
      · have short : i.val - place.offset < 4 := by omega
        simp [above, below, bytesOf, getD, short]
      · have long : ¬ i.val - place.offset < 4 := by omega
        simp [above, below, bytesOf, getD, long]
    · simp [above]

theorem PciPlace.copyOut_word (cfg : PciCfg) (place : PciPlace) :
    (copyOut cfg place.offset 4).map wordOf = .ok (place.word cfg) := by
  rw [copyOut, dif_pos place.offset_lt]
  rfl

theorem PciPlace.word_write (cfg : PciCfg) (value : Word) (place other : PciPlace) :
    other.word (overwrite cfg place.offset (bytesOf value 4)) = if other = place then value else other.word cfg := by
  have length : (bytesOf value 4).length = 4 := by simp [bytesOf]
  split
  · next same =>
      subst same
      have copied : copyOut (overwrite cfg other.offset (bytesOf value 4)) other.offset 4 = .ok (bytesOf value 4) :=
        copyOut_overwrite cfg other.offset_lt
      have word := other.copyOut_word (overwrite cfg other.offset (bytesOf value 4))
      rw [copied] at word
      exact (Except.ok.inj word).symm.trans (wordOf_bytesOf_four value)
  · next apart =>
      unfold word
      congr 2
      funext k
      have outside := offset_apart apart
      exact overwrite_apart (by simp only; omega)

variable (env : Env W)

theorem vmIoIn_pci (vm : VmState n W) : vmIoIn env 0xCFC 4 vm = (vmIoInPci vm.io, vm) := rfl

theorem vmIoOut_pci_address (value : Word) (vm : VmState n W) :
    vmIoOut env 0xCF8 value 4 vm = .ok { vm with io := { vm.io with pciAddr := value } } := rfl

theorem vmIoOut_pci_data (value : Word) (vm : VmState n W) :
    vmIoOut env 0xCFC value 4 vm = .ok { vm with io := pciWrite vm.io value } := by
  cases enabled : vm.io.pciAddr.msb with
  | true => simp [vmIoOut, enabled]
  | false =>
    have unselected : pciSelected vm.io.pciAddr = none := dif_neg (by simp [enabled])
    simp [vmIoOut, enabled, pciWrite, unselected]

theorem field_and {mask : Word} {shift k : Nat} (kept : ∀ i < k, mask.getLsbD (shift + i) = true) :
    ((addr &&& mask).toNat >>> shift) % 2 ^ k = (addr.toNat >>> shift) % 2 ^ k := by
  apply Nat.eq_of_testBit_eq
  intro i
  rw [Nat.testBit_mod_two_pow, Nat.testBit_mod_two_pow, Nat.testBit_shiftRight, Nat.testBit_shiftRight,
    testBit_toNat, testBit_toNat, getLsbD_and]
  by_cases inside : i < k
  · rw [kept i inside, Bool.and_true]
  · simp [inside]

theorem pciPlace_mask (addr : Word) : pciPlace (addr &&& ~~~0x700) = pciPlace addr := by
  have high : (~~~0x700 : Word).msb = true := by decide
  have enable : (addr &&& ~~~0x700).msb = addr.msb := by rw [msb_and, high, Bool.and_true]
  have bus : pciBus (addr &&& ~~~0x700) = pciBus addr := field_and (k := 8) (by decide)
  have device : pciDev (addr &&& ~~~0x700) = pciDev addr := field_and (k := 5) (by decide)
  have register : pciReg (addr &&& ~~~0x700) = pciReg addr := field_and (k := 6) (by decide)
  simp only [pciPlace, enable, bus, device, register]

theorem pciPlace_eq_some {place : PciPlace} (found : pciPlace addr = some place) :
    addr.msb = true ∧ pciBus addr = 0 ∧ pciDev addr < 4 ∧ pciDev addr * 256 + pciReg addr * 4 = place.offset := by
  unfold pciPlace at found
  split at found
  · next selected =>
      cases found
      have small : pciReg addr % 64 = pciReg addr := Nat.mod_eq_of_lt (pciReg_lt addr)
      exact ⟨selected.1, selected.2.1, selected.2.2, by simp [PciPlace.offset, small]⟩
  · cases found

theorem pciPlace_eq_none (missed : pciPlace addr = none) : ¬ (addr.msb = true ∧ pciBus addr = 0 ∧ pciDev addr < 4) := by
  unfold pciPlace at missed
  split at missed
  · cases missed
  · assumption

theorem vmIoInPciChecked_eq : vmIoInPciChecked io = .ok (vmIoInPci io) := by
  unfold vmIoInPciChecked
  cases allocated : io.pciCfg with
  | none => simp [vmIoInPci, allocated]
  | some cfg =>
    rw [vmIoInPci_eq io allocated]
    have aligned := pciReg_lt io.pciAddr
    cases found : pciPlace io.pciAddr with
    | none =>
      have missed := pciPlace_eq_none found
      split
      · rfl
      · next enabled =>
          rw [Bool.not_eq_false] at enabled
          simp only
          rw [if_pos (by by_contra selected; apply missed; exact ⟨enabled, by omega, by omega⟩)]
          rfl
    | some place =>
      obtain ⟨enabled, bus, device, offset⟩ := pciPlace_eq_some found
      simp only
      rw [if_neg (by simp [enabled]), if_neg (by omega), if_pos (by omega), offset]
      exact place.copyOut_word cfg

theorem pciWriteChecked_eq (value : Word) (enabled : io.pciAddr.msb = true) :
    pciWriteChecked io value = .ok (pciWrite io value) := by
  unfold pciWriteChecked
  cases allocated : io.pciCfg with
  | none => simp [pciWrite, allocated]
  | some cfg =>
    rw [pciWrite_eq io value allocated]
    have aligned := pciReg_lt io.pciAddr
    cases found : pciPlace io.pciAddr with
    | none =>
      have missed := pciPlace_eq_none found
      simp only
      rw [if_neg fun selected => missed ⟨enabled, selected.1, selected.2.1⟩]
      simp [← allocated]
    | some place =>
      obtain ⟨-, bus, device, offset⟩ := pciPlace_eq_some found
      simp only
      rw [if_pos (by omega), offset, copyIn, if_pos (show _ + (bytesOf value 4).length ≤ _ from place.offset_lt)]
      rfl

structure PciHolds (history : List PciAccess) (io : VmIo) : Prop where
  latch : io.pciAddr = pciLatch history
  words : ∃ cfg, io.pciCfg = some cfg ∧ ∀ place, place.word cfg = (lastWritten place history).getD place.powerOn

theorem pciHolds_init (io : VmIo) (sys : Vrt) (w : W) (bound : Bool)
    (allocated : (vmIoInit env io sys w).1.pciCfg ≠ none) :
    PciHolds [] (vmIoSetHost (vmIoInit env io sys w).1 bound) := by
  simp only [vmIoInit, vmPciInitCfg] at allocated ⊢
  split at allocated
  · exact absurd rfl allocated
  · exact ⟨rfl, pciPowerOn, rfl, fun _ => rfl⟩

theorem PciHolds.access {env : Env W} {history : List PciAccess} {vm : VmState n W} (holds : PciHolds history vm.io)
    (access : PciAccess) : ∃ vm', pciAccess env vm access = .ok vm' ∧ PciHolds (access :: history) vm'.io := by
  obtain ⟨latch, cfg, allocated, words⟩ := holds
  cases access with
  | address value => exact ⟨_, vmIoOut_pci_address env value vm, rfl, cfg, allocated, words⟩
  | read => exact ⟨_, rfl, latch, cfg, allocated, words⟩
  | write value =>
    refine ⟨_, vmIoOut_pci_data env value vm, ?_⟩
    rw [pciWrite_eq vm.io value allocated]
    refine ⟨latch, _, rfl, fun place => ?_⟩
    rw [lastWritten, ← latch]
    cases found : pciPlace vm.io.pciAddr with
    | none => simpa using words place
    | some written =>
      rw [elim_some, PciPlace.word_write]
      by_cases same : place = written
      · simp [same]
      · rw [if_neg same, if_neg (fun eq => same (some.inj eq).symm)]
        exact words place

theorem PciHolds.run {start : VmState n W} (holds : PciHolds [] start.io) (history : List PciAccess) :
    ∃ vm, pciRun env start history = .ok vm ∧ PciHolds history vm.io := by
  induction history with
  | nil => exact ⟨start, rfl, holds⟩
  | cons access earlier ih =>
    obtain ⟨vm, ran, holds⟩ := ih
    obtain ⟨vm', stepped, holds⟩ := holds.access access
    exact ⟨vm', bind_eq_ok.mpr ⟨vm, ran, stepped⟩, holds⟩

/-- A map from device and register to the last value written. -/
theorem pci_config_store {env : Env W} {io : VmIo} {sys : Vrt} {w : W} {bound : Bool} {start : VmState n W}
    (init : start.io = vmIoSetHost (vmIoInit env io sys w).1 bound)
    (allocated : (vmIoInit env io sys w).1.pciCfg ≠ none) (history : List PciAccess) :
    ∃ vm, pciRun env start history = .ok vm ∧ (∀ place, pciPlace (pciLatch history) = some place →
        vmIoIn env 0xCFC 4 vm = ((lastWritten place history).getD place.powerOn, vm)) ∧
      (pciPlace (pciLatch history) = none →
        vmIoIn env 0xCFC 4 vm = (0xFFFFFFFF, vm) ∧ ∀ value, vmIoOut env 0xCFC value 4 vm = .ok vm) ∧
      (∀ addr : Word, pciPlace (addr &&& ~~~0x700) = pciPlace addr) ∧
      vmIoInPciChecked vm.io = .ok (vmIoInPci vm.io) ∧
      (vm.io.pciAddr.msb = true → ∀ value, pciWriteChecked vm.io value = .ok (pciWrite vm.io value)) := by
  have fresh : PciHolds [] start.io := init ▸ pciHolds_init env io sys w bound allocated
  obtain ⟨vm, ran, latch, cfg, filled, words⟩ := fresh.run env history
  refine ⟨vm, ran, ?_, ?_, pciPlace_mask, vmIoInPciChecked_eq vm.io, fun enabled value =>
    pciWriteChecked_eq vm.io value enabled⟩
  · intro place found
    rw [vmIoIn_pci, vmIoInPci_eq vm.io filled, latch, found, elim_some, words]
  · intro missed
    refine ⟨?_, fun value => ?_⟩
    · rw [vmIoIn_pci, vmIoInPci_eq vm.io filled, latch, missed, elim_none]
    · rw [vmIoOut_pci_data, pciWrite_eq vm.io value filled, latch, missed, elim_none, ← filled, ← latch]

theorem pci_register_shared :
    ∃ vm, pciRun idleHost guestAfterInit [.address 0x80000904, .write 7, .address 0x80000804] = .ok vm ∧
      vmIoIn idleHost 0xCFC 4 vm = (7, vm) := by
  obtain ⟨vm, ran, reads, -⟩ := @pci_config_store _ _ idleHost ioStatics vrtStatics () false guestAfterInit rfl
    (by decide) [.address 0x80000904, .write 7, .address 0x80000804]
  exact ⟨vm, ran, reads ⟨1, 1⟩ (by decide)⟩

end Flinstone.Vm
