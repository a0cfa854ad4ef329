import Flinstone.Vm.Control
import Flinstone.Vm.Encoding

/-! # Paging and accesses of several bytes -/

namespace Flinstone.Vm
open Flinstone.Lib Flinstone.Sys BitVec

variable {n : Nat} {W : Type}

inductive MemAccess where
  | push (count : Nat) (value : VmCpu → Word)
  | pop (count : Nat)
  | fetch (instr : VmInstr)

def byteAddr (vm : VmState n W) (linear : Word) (i : Nat) : Except Stop Word :=
  translateAddr vm.cpu vm.mem (linear + BitVec.ofNat 32 i)

/-- Where the code looks for a byte: behind the translation of the first one. -/
def usedAddr (vm : VmState n W) (linear : Word) (i : Nat) : Except Stop Word :=
  (translateAddr vm.cpu vm.mem linear).map (· + BitVec.ofNat 32 i)

def BytesAt (ram : Ram n) (addr : Nat → Except Stop Word) (bytes : List Byte) : Prop :=
  ∀ i < bytes.length, ∃ phys, addr i = .ok phys ∧ byteAt ram phys.toNat = .ok (bytes.getD i 0)

/-- If an access goes on in a second page, the frame of that page follows the frame of the first. -/
def FramesFollow (vm : VmState n W) (linear : Word) (count : Nat) : Prop :=
  ∀ room, linear.toNat % 4096 + room = 4096 → room < count →
    byteAddr vm linear room = usedAddr vm linear room

namespace MemAccess

def linear (vm : VmState n W) : MemAccess → Word
  | push count _ => stackLinear (lowered vm.cpu count)
  | pop _ => stackLinear vm.cpu
  | fetch _ => guestEipLinear vm.cpu

def size : MemAccess → Nat
  | push count _ | pop count => count
  | fetch instr => instr.size

/-- The stack accesses of the interpreter have 2 or 4 bytes; a fetch has those of the instruction that it gives. -/
def Made (vm : VmState n W) : MemAccess → Prop
  | push count _ | pop count => count = 2 ∨ count = 4
  | fetch instr => Vm.fetch vm = .ok (some instr)

def InRam (n : Nat) (addr : Nat → Except Stop Word) (a : MemAccess) : Prop :=
  ∀ i < a.size, ∃ phys, addr i = .ok phys ∧ phys.toNat < n

/-- The access reads or writes, for byte `i`, the byte of RAM at `addr i`, and no other. -/
def Uses (vm : VmState n W) (addr : Nat → Except Stop Word) : MemAccess → Prop
  | push count value =>
    ∃ ram, pushStack count value vm = .ok (vm.put (lowered vm.cpu count) ram) ∧
      BytesAt ram addr (bytesOf (value (lowered vm.cpu count)) count) ∧
      ∀ i : Fin n, (∀ k < count, addr k ≠ .ok (BitVec.ofNat 32 i)) → ram i = vm.mem.ram i
  | pop count =>
    ∃ bytes, bytes.length = count ∧ BytesAt vm.mem.ram addr bytes ∧
      popStack count vm = .ok (wordOf bytes, vm.put (raised vm.cpu count) vm.mem.ram)
  | fetch instr =>
    ∃ bytes, bytes.length = instr.size ∧ BytesAt vm.mem.ram addr bytes ∧ Encodes n bytes instr

end MemAccess

section
variable {linear : Word} {i : Nat} (near : linear.toNat % 4096 + i < 4096)
include near

theorem toNat_in_page : (linear + BitVec.ofNat 32 i).toNat = linear.toNat + i := by
  rw [toNat_add, toNat_ofNat]
  omega

theorem shift_in_page {k : Nat} (high : 12 ≤ k) : (linear + BitVec.ofNat 32 i) >>> k = linear >>> k := by
  apply eq_of_toNat_eq
  rw [toNat_ushiftRight, toNat_ushiftRight, toNat_in_page near, Nat.shiftRight_eq_div_pow,
    Nat.shiftRight_eq_div_pow]
  obtain ⟨j, rfl⟩ := Nat.exists_eq_add_of_le high
  rw [pow_add, ← Nat.div_div_eq_div_mul, ← Nat.div_div_eq_div_mul]
  congr 1
  omega

theorem offset_in_page : (linear + BitVec.ofNat 32 i) &&& 0xFFF = (linear &&& 0xFFF) + BitVec.ofNat 32 i := by
  apply eq_of_toNat_eq
  have mask (x : Nat) : x &&& 0xFFF = x % 4096 := Nat.and_two_pow_sub_one_eq_mod x 12
  rw [toNat_and, toNat_in_page near, toNat_add, toNat_and, toNat_ofNat,
    show (0xFFF : Word).toNat = 0xFFF from rfl, mask, mask]
  omega

theorem vmCpuTranslate_in_page (ram : Ram n) (cr0 cr3 : Word) :
    vmCpuTranslate ram cr0 cr3 (linear + BitVec.ofNat 32 i) =
      (vmCpuTranslate ram cr0 cr3 linear).map (· + BitVec.ofNat 32 i) := by
  have pde : pdeAddr cr3 (linear + BitVec.ofNat 32 i) = pdeAddr cr3 linear := by
    rw [pdeAddr, shift_in_page near (by decide), pdeAddr]
  have pte (entry : Word) : pteAddr entry (linear + BitVec.ofNat 32 i) = pteAddr entry linear := by
    rw [pteAddr, shift_in_page near (by decide), pteAddr]
  unfold vmCpuTranslate
  rw [pde]
  split
  · rfl
  split
  · rfl
  cases pageEntry ram (pdeAddr cr3 linear) with
  | error stop => rfl
  | ok entry =>
    cases entry with
    | none => rfl
    | some entry =>
      simp only [bind, Except.bind, pte]
      cases pageEntry ram (pteAddr entry linear) with
      | error stop => rfl
      | ok entry =>
        cases entry with
        | none => rfl
        | some frame =>
          simp only [offset_in_page near, ← add_assoc]
          rfl

end

theorem byteAddr_add (vm : VmState n W) {linear : Word} {first second : Nat}
    (near : (linear + BitVec.ofNat 32 first).toNat % 4096 + second < 4096) :
    byteAddr vm linear (first + second) = (byteAddr vm linear first).map (· + BitVec.ofNat 32 second) := by
  unfold byteAddr translateAddr
  rw [ofNat_add, ← add_assoc, vmCpuTranslate_in_page near]

variable {count : Nat} {vm : VmState n W} {phys : Word} {ram : Ram n} {instr : VmInstr}

theorem framesFollow_iff (vm : VmState n W) (linear : Word) (short : count ≤ 4096) : FramesFollow vm linear count ↔
      ∀ i < count, byteAddr vm linear i = usedAddr vm linear i := by
  constructor
  · intro follow i inside
    by_cases near : linear.toNat % 4096 + i < 4096
    · exact vmCpuTranslate_in_page near ..
    · obtain ⟨room, full⟩ : ∃ room, linear.toNat % 4096 + room = 4096 := ⟨4096 - linear.toNat % 4096, by omega⟩
      obtain ⟨rest, rfl⟩ := Nat.exists_eq_add_of_le (show room ≤ i by omega)
      have start : (linear + BitVec.ofNat 32 room).toNat % 4096 = 0 := by
        rw [toNat_add, toNat_ofNat]
        omega
      rw [byteAddr_add vm (by omega), follow room full (by omega), usedAddr, usedAddr, ofNat_add]
      cases translateAddr vm.cpu vm.mem linear with
      | error stop => rfl
      | ok phys => exact congrArg Except.ok (add_assoc ..)
  · intro all room _ inside
    exact all room inside

theorem block_of_used (sized : Sized n) {linear : Word} {addr : Nat → Except Stop Word} (positive : 0 < count)
    (short : count ≤ 16) (mapped : ∀ i < count, ∃ phys, addr i = .ok phys ∧ phys.toNat < n)
    (all : ∀ i < count, addr i = usedAddr vm linear i) :
    ∃ phys, translateAddr vm.cpu vm.mem linear = .ok phys ∧ phys.toNat + count ≤ n ∧
      ∀ i < count, addr i = .ok (phys + BitVec.ofNat 32 i) := by
  have upper := sized.upper
  obtain ⟨last, found, inside⟩ := mapped (count - 1) (by omega)
  rw [all (count - 1) (by omega), usedAddr] at found
  unfold usedAddr at all
  obtain ⟨phys, here, rfl⟩ := map_eq_ok.mp found
  obtain ⟨first, start, below⟩ := mapped 0 positive
  rw [all 0 positive, here] at start
  have same : first = phys := (Except.ok.inj start).symm.trans (add_zero phys)
  rw [same] at below
  have exact : (phys + BitVec.ofNat 32 (count - 1)).toNat = phys.toNat + (count - 1) := by
    apply toNat_add_of_not_wraps
    unfold Wraps
    omega
  rw [here] at all
  exact ⟨phys, here, by omega, all⟩

theorem bytesAt_of_block (sized : Sized n) {addr : Nat → Except Stop Word} {bytes : List Byte}
    (places : ∀ i < bytes.length, addr i = .ok (phys + BitVec.ofNat 32 i))
    (copied : copyOut ram phys.toNat bytes.length = .ok bytes) : BytesAt ram addr bytes := by
  obtain ⟨inside, read⟩ := copyOut_eq_ok copied
  intro i below
  refine ⟨_, places i below, ?_⟩
  rw [toNat_offset sized (by omega)]
  exact read i below

theorem vmDecode_inside (decoded : vmDecode ram phys = .ok (some instr)) : phys.toNat < n := by
  unfold vmDecode at decoded
  split at decoded
  · cases decoded
  · obtain ⟨first, read, -⟩ := bind_eq_ok.mp decoded
    by_contra outside
    rw [byteAt_of_ge (Nat.le_of_not_lt outside)] at read
    cases read

theorem fetch_decoded (sized : Sized n) (fetched : fetch vm = .ok (some instr)) :
    ∃ phys, translateAddr vm.cpu vm.mem (guestEipLinear vm.cpu) = .ok phys ∧ phys.toNat + 16 ≤ n ∧
      vmDecode vm.mem.ram phys = .ok (some instr) := by
  obtain ⟨phys, found, decoded⟩ := bind_eq_ok.mp fetched
  split at decoded
  · cases decoded
  · next room =>
      have upper := sized.upper
      have inside := vmDecode_inside decoded
      have exact : (phys + BitVec.ofNat 32 16).toNat = phys.toNat + 16 := by
        apply toNat_add_of_not_wraps
        unfold Wraps
        omega
      change (phys + 16).toNat = _ at exact
      exact ⟨phys, found, by omega, decoded⟩

namespace MemAccess

section
variable {vm : VmState n W} {count : Nat} {addr : Nat → Except Stop Word} (sized : Sized n)
include sized

theorem uses_push {value : VmCpu → Word} (counts : count = 2 ∨ count = 4) (mapped : (push count value).InRam n addr)
    (all : ∀ i < count, addr i = usedAddr vm ((push count value).linear vm) i) : (push count value).Uses vm addr := by
  have bounds : 0 < count ∧ count ≤ 16 := by omega
  obtain ⟨phys, here, inside, places⟩ := block_of_used sized bounds.1 bounds.2 mapped all
  have length : (bytesOf (value (lowered vm.cpu count)) count).length = count := by simp [bytesOf]
  refine ⟨_, pushStack_inside value here inside, bytesAt_of_block sized (by rwa [length])
    (copyOut_overwrite _ (by rwa [length])), fun i elsewhere => overwrite_apart ?_⟩
  by_contra within
  push Not at within
  apply elsewhere (i - phys.toNat) (by omega)
  rw [places _ (by omega)]
  congr 1
  apply eq_of_toNat_eq
  rw [toNat_offset sized (by omega), toNat_ofNat]
  have upper := sized.upper
  omega

theorem uses_pop (counts : count = 2 ∨ count = 4) (mapped : (pop count).InRam n addr)
    (all : ∀ i < count, addr i = usedAddr vm ((pop count).linear vm) i) : (pop count).Uses vm addr := by
  have bounds : 0 < count ∧ count ≤ 16 := by omega
  obtain ⟨phys, here, inside, places⟩ := block_of_used sized bounds.1 bounds.2 mapped all
  obtain ⟨bytes, copied⟩ := @copyOut_of_le _ _ _ vm.mem.ram inside
  have length := length_copyOut copied
  refine ⟨bytes, length, bytesAt_of_block sized (by rwa [length]) (by rwa [length]), ?_⟩
  exact popStack_copied ((stackPhys_zero vm).trans here) copied

theorem fetch_bounds {instr : VmInstr} (fetched : Vm.fetch vm = .ok (some instr)) :
    0 < instr.size ∧ instr.size ≤ 16 := by
  obtain ⟨phys, found, window, decoded⟩ := fetch_decoded sized fetched
  obtain ⟨positive, short, -⟩ := prefixed_decodeWindow _ _ (Except.ok.inj
    ((vmDecode_window vm.mem.ram sized window).symm.trans decoded))
  omega

theorem uses_fetch {instr : VmInstr} (fetched : Vm.fetch vm = .ok (some instr)) (mapped : (fetch instr).InRam n addr)
    (all : ∀ i < instr.size, addr i = usedAddr vm ((fetch instr).linear vm) i) : (fetch instr).Uses vm addr := by
  obtain ⟨positive, short⟩ := fetch_bounds sized fetched
  obtain ⟨phys, found, window, decoded⟩ := fetch_decoded sized fetched
  obtain ⟨phys', here, inside, places⟩ := block_of_used sized positive short mapped all
  obtain rfl := Except.ok.inj (found.symm.trans here)
  obtain ⟨bytes, copied⟩ := @copyOut_of_le _ _ _ vm.mem.ram inside
  have length := length_copyOut copied
  exact ⟨bytes, length, bytesAt_of_block sized (by rwa [length]) (by rwa [length]),
    vmDecode_encodes sized window decoded copied⟩

theorem uses (a : MemAccess) (made : a.Made vm) (mapped : a.InRam n addr)
    (all : ∀ i < a.size, addr i = usedAddr vm (a.linear vm) i) : a.Uses vm addr := by
  cases a with
  | push count value => exact uses_push sized made mapped all
  | pop count => exact uses_pop sized made mapped all
  | fetch instr => exact uses_fetch sized made mapped all

theorem size_le (a : MemAccess) (made : a.Made vm) : a.size ≤ 16 := by
  cases a with
  | push count value | pop count =>
    have counts : count = 2 ∨ count = 4 := made
    show count ≤ 16
    omega
  | fetch instr => exact (fetch_bounds sized made).2

end

end MemAccess

/-- The code uses the bytes behind the first one's address. They are the bytes of the access exactly when the frame of
a second page follows. -/
theorem mem_access_bytewise {vm : VmState guestRamSize W} {a : MemAccess} (made : a.Made vm) :
    (a.InRam guestRamSize (usedAddr vm (a.linear vm)) → a.Uses vm (usedAddr vm (a.linear vm))) ∧
    ((∀ i < a.size, byteAddr vm (a.linear vm) i = usedAddr vm (a.linear vm) i) ↔
      FramesFollow vm (a.linear vm) a.size) ∧
    (a.InRam guestRamSize (byteAddr vm (a.linear vm)) → FramesFollow vm (a.linear vm) a.size →
      a.Uses vm (byteAddr vm (a.linear vm))) := by
  have follow := framesFollow_iff vm (a.linear vm) ((a.size_le sized_guest made).trans (by decide))
  exact ⟨fun mapped => a.uses sized_guest made mapped fun _ _ => rfl, follow.symm,
    fun mapped frames => a.uses sized_guest made mapped (follow.mp frames)⟩

def pagedRam : Ram guestRamSize := fun i =>
  match i.val with
  | 0x1000 | 0x2000 | 0x2004 => 0x01
  | 0x1001 => 0x20
  | 0x2001 => 0x50
  | 0x2005 => 0x80
  | 0x8000 => 0xAA
  | _ => 0

def pagedCpu (top : Word) : VmCpu := { setReg32 vmCpuInit (some esp) top with cr0 := 0x80000000, cr3 := 0x1000 }

def pagedGuest (top : Word) : VmState guestRamSize Unit := guestAfterInit.put (pagedCpu top) pagedRam

theorem pop_in_page_bytewise : (MemAccess.pop 4).Uses (pagedGuest 0x0FF0) (byteAddr (pagedGuest 0x0FF0) 0x0FF0) := by
  have places : ∀ i < 4, byteAddr (pagedGuest 0x0FF0) 0x0FF0 i = .ok (0x5FF0 + BitVec.ofNat 32 i) := by decide +kernel
  have inside : ∀ i < 4, (0x5FF0 + BitVec.ofNat 32 i : Word).toNat < guestRamSize := by decide
  have pop : (MemAccess.pop 4).Made (pagedGuest 0x0FF0) := .inr rfl
  refine (mem_access_bytewise pop).2.2 (fun i below => ⟨_, places i below, inside i below⟩) ?_
  intro room full below
  change 0xFF0 + room = 4096 at full
  change room < 4 at below
  omega

theorem pop_across_pages : (MemAccess.pop 4).Made (pagedGuest 0x0FFE) ∧
      (MemAccess.pop 4).InRam guestRamSize (byteAddr (pagedGuest 0x0FFE) 0x0FFE) ∧
      ¬ (MemAccess.pop 4).Uses (pagedGuest 0x0FFE) (byteAddr (pagedGuest 0x0FFE) 0x0FFE) := by
  have places : ∀ i < 4, byteAddr (pagedGuest 0x0FFE) 0x0FFE i =
      .ok ([0x5FFE, 0x5FFF, 0x8000, 0x8001].getD i 0) := by decide +kernel
  have inside : ∀ i < 4, ([0x5FFE, 0x5FFF, 0x8000, 0x8001].getD i 0 : Word).toNat < guestRamSize := by decide
  have content : ∀ i < 4, byteAt pagedRam ([0x5FFE, 0x5FFF, 0x8000, 0x8001].getD i 0 : Word).toNat =
      .ok ([0, 0, 0xAA, 0].getD i 0) := by decide +kernel
  have value : (popStack 4 (pagedGuest 0x0FFE)).map (fun r => r.1) = .ok 0 := by decide +kernel
  refine ⟨.inr rfl, fun i below => ⟨_, places i below, inside i below⟩, ?_⟩
  rintro ⟨bytes, length, held, popped⟩
  have same : bytes = [0, 0, 0xAA, 0] := by
    refine List.ext_getElem length fun i inBytes inList => ?_
    have below : i < 4 := inList
    obtain ⟨phys, found, read⟩ := held i inBytes
    obtain rfl := Except.ok.inj (found.symm.trans (places i below))
    have byte := Except.ok.inj (read.symm.trans (content i below))
    rwa [← List.getElem_eq_getD 0, ← List.getElem_eq_getD 0] at byte
  rw [popped, same] at value
  exact absurd (Except.ok.inj value) (by decide)

end Flinstone.Vm
