import Flinstone.Lib.DataPort
import Flinstone.Vm.Image

/-! # The IDE ports -/

namespace Flinstone.Vm
open Flinstone.Lib Flinstone.Sys List

variable {n : Nat} {W : Type}

inductive Access where
  | read (port : Word) (size : Nat) (value : Word)
  | write (port value : Word) (size : Nat)

def Access.Does (env : Env W) (vm vm' : VmState n W) : Access → Prop
  | .read port size value => vmIoIn env port size vm = (value, vm')
  | .write port value size => vmIoOut env port value size vm = .ok vm'

structure Aside (vm vm' : VmState n W) : Prop where
  lba : vm'.io.ideLba = vm.io.ideLba
  index : vm'.io.ideByteIdx = vm.io.ideByteIdx
  buffer : vm'.io.sectorBuf = vm.io.sectorBuf
  isOpen : vm'.disk.isOpen = vm.disk.isOpen
  sectors : vm'.disk.sectors = vm.disk.sectors
  image : vm'.disk.image = vm.disk.image

theorem Aside.of_cpu (vm : VmState n W) (cpu : VmCpu) : Aside vm (vm.setCpu cpu) := ⟨rfl, rfl, rfl, rfl, rfl, rfl⟩

variable {vm vm' : VmState n W} {disk : VmDisk} {env : Env W} {lba : Word} {count : Nat}

theorem Aside.of_checkpoint {checkpoint : Option HostFile} {world : W}
    (kept : disk = { vm.disk with checkpoint }) : Aside vm { vm with disk, world } := by
  subst kept
  exact ⟨rfl, rfl, rfl, rfl, rfl, rfl⟩

inductive Accesses (env : Env W) : VmState n W → List Access → VmState n W → Prop where
  | done (vm : VmState n W) : Accesses env vm [] vm
  | aside {vm vm' vm'' : VmState n W} {accesses : List Access} (aside : Aside vm vm')
      (rest : Accesses env vm' accesses vm'') : Accesses env vm accesses vm''
  | access {vm vm' vm'' : VmState n W} {access : Access} {accesses : List Access} (does : access.Does env vm vm')
      (rest : Accesses env vm' accesses vm'') : Accesses env vm (access :: accesses) vm''

namespace Accesses
variable {env : Env W} {vm vm' vm'' : VmState n W} {accesses accesses' : List Access}

theorem ended (aside : Aside vm vm') : Accesses env vm [] vm' := .aside aside (.done vm')

theorem append (first : Accesses env vm accesses vm') (second : Accesses env vm' accesses' vm'') :
    Accesses env vm (accesses ++ accesses') vm'' := by
  induction first with
  | done => exact second
  | aside aside _ ih => exact .aside aside (ih second)
  | access does _ ih => exact .access does (ih second)

end Accesses

abbrev IdePort := DataPort Word Byte 512

structure IdeShows (vm : VmState n W) (p : IdePort) : Prop where
  addr : p.addr = vm.io.ideLba
  index : p.index = vm.io.ideByteIdx.val
  buffer : p.buffer = vm.io.sectorBuf
  store : p.store = fun lba => diskContent vm.disk lba.toNat
  active : vm.disk.isOpen = true
  intact : DiskIntact vm.disk

def lbaAfter (port value lba : Word) : Word :=
  match port.toNat with
  | 0x1f3 => (lba &&& 0xFFFFFF00) ||| (value &&& 0xFF)
  | 0x1f4 => (lba &&& 0xFFFF00FF) ||| ((value &&& 0xFF) <<< 8)
  | 0x1f5 => (lba &&& 0xFF00FFFF) ||| ((value &&& 0xFF) <<< 16)
  | _ => lba

namespace Access

def next (p : IdePort) : Access → IdePort
  | .read port _ _ => if port = 0x1f0 then (p.get 0).2 else p
  | .write port value _ =>
    if port = 0x1f0 then p.put 0 (value.setWidth 8) else p.select (lbaAfter port value p.addr)

def Answers (p : IdePort) : Access → Prop
  | .read port _ value => port = 0x1f0 → value = (p.get 0).1.setWidth 32
  | .write .. => True

def isData : Access → Bool
  | .read port _ _ => port = 0x1f0
  | .write port _ _ => port = 0x1f0

end Access

variable {p : IdePort}

theorem Aside.shows (aside : Aside vm vm') (shown : IdeShows vm p) : IdeShows vm' p where
  addr := shown.addr.trans aside.lba.symm
  index := shown.index.trans (congrArg Fin.val aside.index).symm
  buffer := shown.buffer.trans aside.buffer.symm
  store := by simpa only [diskContent, aside.isOpen, aside.sectors, aside.image] using shown.store
  active := aside.isOpen.trans shown.active
  intact := by simpa only [DiskIntact, aside.isOpen, aside.sectors, aside.image] using shown.intact

section
variable {env : Env W} {vm vm' : VmState n W} {p : IdePort}

theorem vmDiskReadSector_stored (files : ∀ w, (env.succeeds w).1 = true) (shown : IdeShows vm p) (w : W) :
    (vmDiskReadSector env vm.disk vm.io.ideLba w).1 = p.store p.addr := by
  have stored : p.store p.addr = diskContent vm.disk vm.io.ideLba.toNat := by rw [shown.store, shown.addr]
  rw [stored]
  unfold vmDiskReadSector
  by_cases outside : vm.disk.sectors.toNat ≤ vm.io.ideLba.toNat
  · rw [if_pos (by simp [outside]), diskContent, if_neg (by omega)]
  · have below := not_le.mp outside
    have long := shown.intact shown.active
    rw [if_neg (by simp [outside, shown.active]), diskContent_eq_some shown.active shown.intact below]
    obtain ⟨w₁, first⟩ : ∃ w₁, env.succeeds w = (true, w₁) := ⟨_, Prod.ext (files w) rfl⟩
    obtain ⟨w₂, second⟩ : ∃ w₂, env.succeeds w₁ = (true, w₂) := ⟨_, Prod.ext (files w₁) rfl⟩
    simp only [first, second]
    rw [if_neg (by omega)]

theorem readPortWidth_byte (value : Byte) (size : Nat) :
    readPortWidth (value.setWidth 32) size = value.setWidth 32 := by
  have low : ∀ i : Fin 8, (portMask size).getLsbD i = true := by
    unfold portMask
    split_ifs <;> decide
  apply BitVec.eq_of_getLsbD_eq
  intro i below
  rw [readPortWidth, BitVec.getLsbD_and, BitVec.getLsbD_setWidth]
  by_cases inside : i < 8
  · rw [low ⟨i, inside⟩, Bool.and_true]
  · simp [BitVec.getLsbD_of_ge value i (not_lt.mp inside)]

theorem ideNext_inside {io : VmIo} (inside : io.ideByteIdx.val < 512) :
    ideNext io = (io.sectorBuf ⟨io.ideByteIdx.val, inside⟩,
      { io with ideByteIdx := ⟨io.ideByteIdx.val + 1, Nat.succ_lt_succ inside⟩ }) :=
  dif_pos inside

theorem vmIoIn_inside (env : Env W) (size : Nat) (inside : vm.io.ideByteIdx.val < 512) :
    vmIoIn env 0x1f0 size vm = ((vm.io.sectorBuf ⟨vm.io.ideByteIdx.val, inside⟩).setWidth 32,
      { vm with io := { vm.io with ideByteIdx := ⟨vm.io.ideByteIdx.val + 1, Nat.succ_lt_succ inside⟩ } }) := by
  have opened : vmIoIn env 0x1f0 size vm =
      (readPortWidth ((ideNext vm.io).1.setWidth 32) size, { vm with io := (ideNext vm.io).2 }) := by
    simp only [vmIoIn, vmIoInIde, not_le.mpr inside, if_false]
    rfl
  rw [opened, ideNext_inside inside, readPortWidth_byte]

theorem vmIoIn_full (env : Env W) (size : Nat) (full : 512 ≤ vm.io.ideByteIdx.val) (active : vm.disk.isOpen = true) :
    ∃ world, vmIoIn env 0x1f0 size vm =
      let data := (vmDiskReadSector env vm.disk vm.io.ideLba vm.world).1.getD fun _ => 0
      ((data 0).setWidth 32, { vm with io := { vm.io with sectorBuf := data, ideByteIdx := 1 }, world }) := by
  have opened : vmIoIn env 0x1f0 size vm = (readPortWidth ((ideNext (ideFill env vm).io).1.setWidth 32) size,
        { ideFill env vm with io := (ideNext (ideFill env vm).io).2 }) := by
    simp only [vmIoIn, vmIoInIde, full, if_true]
    rfl
  have filled : ideFill env vm = { vm with
      io := { vm.io with
        sectorBuf := (vmDiskReadSector env vm.disk vm.io.ideLba vm.world).1.getD fun _ => 0
        ideByteIdx := 0 }
      world := (vmDiskReadSector env vm.disk vm.io.ideLba vm.world).2 } := if_pos active
  rw [opened, filled, ideNext_inside (show 0 < 512 by decide), readPortWidth_byte]
  exact ⟨_, rfl⟩

theorem vmIoIn_data (files : ∀ w, (env.succeeds w).1 = true) (shown : IdeShows vm p) (size : Nat) :
    IdeShows (vmIoIn env 0x1f0 size vm).2 (p.get 0).2 ∧ (vmIoIn env 0x1f0 size vm).1 = (p.get 0).1.setWidth 32 := by
  by_cases inside : p.index < 512
  · have got : p.get 0 = (p.buffer ⟨p.index, inside⟩,
        { p with index := p.index + 1, begun := Nat.succ_pos _, fits := inside }) := dif_pos inside
    have here : vm.io.ideByteIdx.val < 512 := shown.index ▸ inside
    rw [got, vmIoIn_inside env size here]
    constructor
    · exact { shown with index := congrArg (· + 1) shown.index }
    · simp only [shown.index, shown.buffer]
  · have got : p.get 0 = (p.block 0 0,
        { p with buffer := p.block 0, index := 1, begun := one_pos, fits := by decide }) := dif_neg inside
    have full : 512 ≤ vm.io.ideByteIdx.val := shown.index ▸ not_lt.mp inside
    obtain ⟨world, result⟩ := vmIoIn_full env size full shown.active
    rw [got, result, vmDiskReadSector_stored files shown]
    exact ⟨{ shown with index := rfl, buffer := rfl }, rfl⟩

theorem vmDiskWriteSector_eq (files : ∀ w, (env.succeeds w).1 = true) {disk : VmDisk} (active : disk.isOpen = true)
    (lba : Word) (data : Sector) (w : W) :
    (vmDiskWriteSector env disk lba data w).1 =
      if lba.toNat < disk.sectors.toNat then { disk with image := disk.image.put lba.toNat data } else disk := by
  unfold vmDiskWriteSector
  by_cases below : lba.toNat < disk.sectors.toNat
  · obtain ⟨w₁, first⟩ : ∃ w₁, env.succeeds w = (true, w₁) := ⟨_, Prod.ext (files w) rfl⟩
    obtain ⟨w₂, second⟩ : ∃ w₂, env.succeeds w₁ = (true, w₂) := ⟨_, Prod.ext (files w₁) rfl⟩
    simp [active, not_le.mpr below, below, first, second]
  · simp [active, not_lt.mp below, below]

theorem vmDiskWriteSector_stored (files : ∀ w, (env.succeeds w).1 = true) (shown : IdeShows vm p) (data : Sector)
    (w : W) :
    p.replaced data = (fun lba => diskContent (vmDiskWriteSector env vm.disk vm.io.ideLba data w).1 lba.toNat) ∧
      (vmDiskWriteSector env vm.disk vm.io.ideLba data w).1.isOpen = true := by
  have stored : (p.store p.addr).isSome ↔ vm.io.ideLba.toNat < vm.disk.sectors.toNat := by
    rw [shown.store, shown.addr]
    exact diskContent_isSome_iff shown.active shown.intact _
  rw [vmDiskWriteSector_eq files shown.active, DataPort.replaced]
  by_cases below : vm.io.ideLba.toNat < vm.disk.sectors.toNat
  · rw [if_pos (stored.mpr below), if_pos below]
    refine ⟨?_, shown.active⟩
    funext lba
    rw [diskContent_put shown.active shown.intact below, Function.update_apply, shown.store, shown.addr]
    simp only [BitVec.toNat_inj]
  · rw [if_neg (mt stored.mp below), if_neg below]
    exact ⟨shown.store, shown.active⟩

theorem ideWriteData_data (files : ∀ w, (env.succeeds w).1 = true) (shown : IdeShows vm p) (value : Word) :
    IdeShows (ideWriteData env value vm) (p.put 0 (value.setWidth 8)) := by
  have place : (if vm.io.ideByteIdx.val < 512 then vm.io.ideByteIdx.val else 0) = p.position := by
    rw [← shown.index]
    have fits := p.fits
    unfold DataPort.position
    split <;> omega
  have buffered : Function.update vm.io.sectorBuf (Fin.ofNat 512 p.position) (value.setWidth 8) =
      fun k => if k.val = p.position then value.setWidth 8 else p.buffer k := by
    funext k
    rw [Function.update_apply, shown.buffer]
    have less := p.position_lt
    simp only [Fin.ext_iff, Fin.ofNat, Nat.mod_eq_of_lt less]
  unfold ideWriteData DataPort.put
  simp only [place, buffered]
  by_cases more : p.position + 1 < 512
  · simp only [more, if_true]
    exact { shown with index := (Nat.mod_eq_of_lt (Nat.lt_succ_of_lt more)).symm, buffer := rfl }
  · simp only [more, if_false, vmDiskIsActive, shown.active, if_true]
    obtain ⟨stored, active⟩ := vmDiskWriteSector_stored files shown
      (fun k => if k.val = p.position then value.setWidth 8 else p.buffer k) vm.world
    have less := p.position_lt
    have full : p.position + 1 = 512 := by omega
    exact ⟨shown.addr, full, rfl, stored, active, vmDiskWriteSector_intact env shown.intact _ _ _⟩

variable {port : Word}

theorem vmIoIn_aside (env : Env W) (vm : VmState n W) (other : port ≠ 0x1f0) (size : Nat) :
    Aside vm (vmIoIn env port size vm).2 := by
  have other : port.toNat ≠ 0x1f0 := fun same => other (BitVec.eq_of_toNat_eq same)
  unfold vmIoIn
  simp only
  split_ifs
  · unfold vmIoInIde
    split
    · contradiction
    all_goals exact ⟨rfl, rfl, rfl, rfl, rfl, rfl⟩
  · unfold vmIoInKeyboard
    split
    · split <;> exact ⟨rfl, rfl, rfl, rfl, rfl, rfl⟩
    · exact ⟨rfl, rfl, rfl, rfl, rfl, rfl⟩
  · unfold vmIoInPit
    split_ifs <;> exact ⟨rfl, rfl, rfl, rfl, rfl, rfl⟩
  all_goals exact ⟨rfl, rfl, rfl, rfl, rfl, rfl⟩

theorem vmIoOutIde_aside (env : Env W) (vm : VmState n W) (other : port ≠ 0x1f0) (value : Word) :
    Aside { vm with io := { vm.io with ideLba := lbaAfter port value vm.io.ideLba } }
      (vmIoOutIde env port.toNat value vm) := by
  have other : port.toNat ≠ 0x1f0 := fun same => other (BitVec.eq_of_toNat_eq same)
  unfold vmIoOutIde lbaAfter
  split
  case h_4 =>
    split <;> first | contradiction | exact ⟨rfl, rfl, rfl, rfl, rfl, rfl⟩
  all_goals
    next here =>
      simp only [here]
      exact ⟨rfl, rfl, rfl, rfl, rfl, rfl⟩

theorem vmSysCall_aside (called : vmSysCall env vm = .ok vm') : Aside vm vm' := by
  unfold vmSysCall at called
  simp only at called
  split at called
  · cases called
  · cases called
    exact ⟨rfl, rfl, rfl, rfl, rfl, rfl⟩

theorem vmIoOut_aside (env : Env W) (vm : VmState n W) (other : port ≠ 0x1f0) (value : Word) (size : Nat) :
    Yields (Aside { vm with io := { vm.io with ideLba := lbaAfter port value vm.io.ideLba } })
      ((vmIoOut env port value size vm).map some) := by
  by_cases ide : 0x1f0 ≤ port.toNat ∧ port.toNat ≤ 0x1f7
  · have result : vmIoOut env port value size vm = .ok (vmIoOutIde env port.toNat value vm) := by
      unfold vmIoOut
      rw [if_neg (by omega), if_neg (by omega), if_neg (by omega), if_neg (by omega), if_neg (by omega),
        if_neg (by omega), if_neg (by omega), if_pos ide]
    rw [result]
    exact yields_some (vmIoOutIde_aside env vm other value)
  · have kept : lbaAfter port value vm.io.ideLba = vm.io.ideLba := by
      unfold lbaAfter
      split <;> first | rfl | omega
    have called : Yields (Aside vm) ((vmSysCall env vm).map some) :=
      fun _ ran => vmSysCall_aside (map_some_eq_ok.mp ran)
    have pci : Aside vm { vm with io := pciWrite vm.io value } := by
      unfold pciWrite
      split <;> exact ⟨rfl, rfl, rfl, rfl, rfl, rfl⟩
    rw [kept]
    unfold vmIoOut
    simp only [ide, if_false, apply_ite (Except.map some)]
    repeat' apply Yields.ite
    all_goals first
      | exact called
      | exact yields_some pci
      | exact yields_some ⟨rfl, rfl, rfl, rfl, rfl, rfl⟩

theorem Access.Does.shows (files : ∀ w, (env.succeeds w).1 = true) {access : Access} (does : access.Does env vm vm')
    (shown : IdeShows vm p) : IdeShows vm' (access.next p) ∧ access.Answers p := by
  cases access with
  | read port size value =>
    obtain rfl : (vmIoIn env port size vm).2 = vm' := congrArg Prod.snd does
    obtain rfl : (vmIoIn env port size vm).1 = value := congrArg Prod.fst does
    by_cases data : port = 0x1f0
    · subst data
      obtain ⟨next, value⟩ := vmIoIn_data files shown size
      exact ⟨next, fun _ => value⟩
    · rw [next, if_neg data]
      exact ⟨(vmIoIn_aside env vm data size).shows shown, fun same => absurd same data⟩
  | write port value size =>
    refine ⟨?_, trivial⟩
    by_cases data : port = 0x1f0
    · subst data
      obtain rfl : ideWriteData env value vm = vm' := Except.ok.inj does
      exact ideWriteData_data files shown value
    · rw [next, if_neg data]
      have aside := vmIoOut_aside env vm data value size vm' (congrArg (Except.map some) does)
      exact aside.shows { shown with addr := congrArg (lbaAfter port value) shown.addr }

end

def Answered (p : IdePort) : List Access → Prop
  | [] => True
  | access :: accesses => access.Answers p ∧ Answered (access.next p) accesses

def portAfter (p : IdePort) (accesses : List Access) : IdePort := accesses.foldl Access.next p

theorem portAfter_append (p : IdePort) (first second : List Access) :
    portAfter p (first ++ second) = portAfter (portAfter p first) second :=
  foldl_append

theorem answered_append (p : IdePort) (first second : List Access) :
    Answered p (first ++ second) ↔ Answered p first ∧ Answered (portAfter p first) second := by
  induction first generalizing p with
  | nil => simp [Answered, portAfter]
  | cons access first ih =>
    simp only [cons_append, Answered, ih, and_assoc]
    rfl

theorem Accesses.shows (files : ∀ w, (env.succeeds w).1 = true)
    {accesses : List Access} (run : Accesses env vm accesses vm') (shown : IdeShows vm p) :
    IdeShows vm' (portAfter p accesses) ∧ Answered p accesses := by
  induction run generalizing p with
  | done => exact ⟨shown, trivial⟩
  | aside aside _ ih => exact ih (aside.shows shown)
  | access does _ ih =>
    obtain ⟨next, answers⟩ := does.shows files shown
    obtain ⟨after, rest⟩ := ih next
    exact ⟨after, answers, rest⟩

def dataAccesses (accesses : List Access) : Nat := accesses.countP Access.isData

theorem Access.position_next (p : IdePort) (access : Access) :
    (access.next p).position = (p.position + if access.isData then 1 else 0) % 512 := by
  have less := p.position_lt
  cases access with
  | read port size value =>
    by_cases data : port = 0x1f0
    · simp only [next, isData, data, if_true, decide_true]
      exact p.position_get 0
    · simp only [next, isData, data, if_false, decide_false, Bool.false_eq_true]
      exact (Nat.mod_eq_of_lt less).symm
  | write port value size =>
    by_cases data : port = 0x1f0
    · simp only [next, isData, data, if_true, decide_true]
      exact p.position_put 0 _
    · simp only [next, isData, data, if_false, decide_false, Bool.false_eq_true]
      exact (Nat.mod_eq_of_lt less).symm

theorem position_portAfter (p : IdePort) (accesses : List Access) :
    (portAfter p accesses).position = (p.position + dataAccesses accesses) % 512 := by
  induction accesses generalizing p with
  | nil => exact (Nat.mod_eq_of_lt p.position_lt).symm
  | cons access accesses ih =>
    have rest := ih (access.next p)
    rw [access.position_next] at rest
    have count : dataAccesses (access :: accesses) =
        dataAccesses accesses + if access.isData then 1 else 0 := countP_cons
    show (portAfter (access.next p) accesses).position = _
    rw [rest, count, Nat.mod_add_mod, add_assoc, add_comm (dataAccesses accesses)]

def Expressible (lba : Word) : Prop := lba.toNat < 2 ^ 24

theorem expressible_iff (lba : Word) : Expressible lba ↔ ∀ i, 24 ≤ i → lba.getLsbD i = false := by
  constructor
  · intro small i high
    exact Nat.testBit_lt_two_pow (lt_of_lt_of_le small (Nat.pow_le_pow_right (by decide) high))
  · intro clear
    exact Nat.lt_pow_two_of_testBit lba.toNat clear

theorem getLsbD_lowMask (i : Nat) : (0xFF : Word).getLsbD i = decide (i < 8) := by
  by_cases inside : i < 32
  · have all : ∀ k : Fin 32, (0xFF : Word).getLsbD k = decide (k.val < 8) := by decide
    exact all ⟨i, inside⟩
  · rw [BitVec.getLsbD_of_ge _ _ (not_lt.mp inside), decide_eq_false (by omega)]

theorem getLsbD_lbaMasks : ∀ k : Fin 32, (0xFFFFFF00 : Word).getLsbD k = !decide (k.val < 8) ∧
      (0xFFFF00FF : Word).getLsbD k = !decide (8 ≤ k.val ∧ k.val < 16) ∧
      (0xFF00FFFF : Word).getLsbD k = !decide (16 ≤ k.val ∧ k.val < 24) := by
  decide

theorem getLsbD_lbaAfter (port value lba : Word) {i : Nat} (inside : i < 32) : (lbaAfter port value lba).getLsbD i =
      if port = 0x1f3 ∧ i < 8 then value.getLsbD i
      else if port = 0x1f4 ∧ 8 ≤ i ∧ i < 16 then value.getLsbD (i - 8)
      else if port = 0x1f5 ∧ 16 ≤ i ∧ i < 24 then value.getLsbD (i - 16)
      else lba.getLsbD i := by
  obtain ⟨first, second, third⟩ := getLsbD_lbaMasks ⟨i, inside⟩
  unfold lbaAfter
  split
  · next here =>
      obtain rfl : port = 0x1f3 := BitVec.eq_of_toNat_eq here
      rw [BitVec.getLsbD_or, BitVec.getLsbD_and, BitVec.getLsbD_and, first, getLsbD_lowMask]
      by_cases low : i < 8 <;> simp [low]
  · next here =>
      obtain rfl : port = 0x1f4 := BitVec.eq_of_toNat_eq here
      show ((lba &&& (0xFFFF00FF : Word)) ||| ((value &&& 0xFF) <<< 8)).getLsbD i = _
      rw [BitVec.getLsbD_or, BitVec.getLsbD_and, BitVec.getLsbD_shiftLeft, BitVec.getLsbD_and, second, getLsbD_lowMask]
      by_cases middle : 8 ≤ i ∧ i < 16
      · have shifted : i - 8 < 8 := by omega
        simp [middle, shifted, not_lt.mpr middle.1, inside]
      · simp [middle, inside]
        intro above below
        omega
  · next here =>
      obtain rfl : port = 0x1f5 := BitVec.eq_of_toNat_eq here
      show ((lba &&& (0xFF00FFFF : Word)) ||| ((value &&& 0xFF) <<< 16)).getLsbD i = _
      rw [BitVec.getLsbD_or, BitVec.getLsbD_and, BitVec.getLsbD_shiftLeft, BitVec.getLsbD_and, third, getLsbD_lowMask]
      by_cases middle : 16 ≤ i ∧ i < 24
      · have shifted : i - 16 < 8 := by omega
        simp [middle, shifted, not_lt.mpr middle.1, inside]
      · simp [middle, inside]
        intro above below
        omega
  · next h3 h4 h5 =>
      have other (k : Word) (ne : port.toNat ≠ k.toNat) : port ≠ k := fun same => ne (congrArg _ same)
      rw [if_neg fun h => other 0x1f3 h3 h.1, if_neg fun h => other 0x1f4 h4 h.1, if_neg fun h => other 0x1f5 h5 h.1]

theorem expressible_lbaAfter (port value : Word) (small : Expressible lba) : Expressible (lbaAfter port value lba) := by
  rw [expressible_iff] at small ⊢
  intro i high
  by_cases inside : i < 32
  · rw [getLsbD_lbaAfter port value lba inside, if_neg (by omega), if_neg (by omega), if_neg (by omega)]
    exact small i high
  · exact BitVec.getLsbD_of_ge _ _ (not_lt.mp inside)

theorem Access.expressible_next (small : Expressible p.addr) (access : Access) : Expressible (access.next p).addr := by
  cases access with
  | read port size value =>
    by_cases data : port = 0x1f0
    · rw [next, if_pos data, DataPort.addr_get]
      exact small
    · rw [next, if_neg data]
      exact small
  | write port value size =>
    by_cases data : port = 0x1f0
    · rw [next, if_pos data, DataPort.addr_put]
      exact small
    · rw [next, if_neg data]
      exact expressible_lbaAfter port value small

theorem expressible_portAfter (small : Expressible p.addr) (accesses : List Access) :
    Expressible (portAfter p accesses).addr := by
  induction accesses generalizing p with
  | nil => exact small
  | cons access accesses ih => exact ih (access.expressible_next small)

def setLba (size : Nat) (lba : Word) : List Access :=
  [.write 0x1f3 lba size, .write 0x1f4 (lba >>> 8) size, .write 0x1f5 (lba >>> 16) size]

def writeSector (size : Nat) (data : Sector) : List Access :=
  (List.ofFn data).map fun byte => .write 0x1f0 (byte.setWidth 32) size

def readSector (size : Nat) (values : Fin 512 → Word) : List Access :=
  (List.ofFn values).map fun value => .read 0x1f0 size value

def sectorTrip (size : Nat) (lba : Word) (data : Sector) (values : Fin 512 → Word) : List Access :=
  setLba size lba ++ writeSector size data ++ setLba size lba ++ readSector size values

theorem lbaAfter_all {old : Word} (small : Expressible lba) (oldSmall : Expressible old) :
    lbaAfter 0x1f5 (lba >>> 16) (lbaAfter 0x1f4 (lba >>> 8) (lbaAfter 0x1f3 lba old)) = lba := by
  rw [expressible_iff] at small oldSmall
  apply BitVec.eq_of_getLsbD_eq
  intro i inside
  simp only [getLsbD_lbaAfter _ _ _ inside, BitVec.getLsbD_ushiftRight]
  rcases (by omega : i < 8 ∨ (8 ≤ i ∧ i < 16) ∨ (16 ≤ i ∧ i < 24) ∨ 24 ≤ i) with low | middle | top | high
  · have others : ¬ 8 ≤ i ∧ ¬ 16 ≤ i := by omega
    simp [low, others]
  · have others : ¬ 16 ≤ i ∧ ¬ i < 8 ∧ 8 + (i - 8) = i := by omega
    simp [middle, others]
  · have others : 16 + (i - 16) = i := by omega
    simp [top, others]
  · have others : ¬ i < 8 ∧ ¬ i < 16 ∧ ¬ i < 24 := by omega
    simp [others, small i high, oldSmall i high]

theorem portAfter_setLba (size : Nat) (small : Expressible lba)
    (oldSmall : Expressible p.addr) : portAfter p (setLba size lba) = p.select lba := by
  exact congrArg p.select (lbaAfter_all small oldSmall)

theorem portAfter_writeSector (size : Nat) (data : Sector) (p : IdePort) :
    portAfter p (writeSector size data) = p.puts 0 (ofFn data) := by
  unfold portAfter writeSector DataPort.puts
  rw [foldl_map]
  congr 1
  funext p byte
  have same : (byte.setWidth 32).setWidth 8 = byte := by simp
  rw [Access.next, if_pos rfl, same]

theorem answered_reads (size : Nat) (values : Fin count → Word) (p : IdePort) :
    Answered p ((ofFn values).map fun value => .read 0x1f0 size value) ↔
      ofFn values = (p.gets 0 count).1.map fun byte => byte.setWidth 32 := by
  induction count generalizing p with
  | zero => simp [Answered, DataPort.gets]
  | succ count ih =>
    simp only [ofFn_succ, map_cons, Answered, ih, DataPort.gets, cons.injEq]
    simp [Access.Answers, Access.next]

theorem first_of_reads {values : Fin (count + 1) → Word}
    (same : ofFn values = (p.gets 0 (count + 1)).1.map fun byte => byte.setWidth 32) :
    values 0 = (p.get 0).1.setWidth 32 := by
  rw [ofFn_succ, DataPort.gets, map_cons] at same
  exact (cons.inj same).1

theorem values_of_map {values : Fin count → Word} {data : Fin count → Byte}
    (same : ofFn values = (ofFn data).map fun byte => byte.setWidth 32) :
    values = fun i => (data i).setWidth 32 := by
  rw [map_ofFn] at same
  exact ofFn_injective same

structure RoundTrip (vm vm' : VmState n W) (lba : Word) (data : Sector) (values : Fin 512 → Word) : Prop where
  reads : values = fun i => (data i).setWidth 32
  sector : diskContent vm'.disk lba.toNat = some data
  others : ∀ other, other ≠ lba.toNat → diskContent vm'.disk other = diskContent vm.disk other

section
variable {env : Env W} {vm vm' : VmState n W} {p : IdePort} {size : Nat} {lba : Word} {data : Sector}
  {values : Fin 512 → Word}

theorem portAfter_written (small : Expressible lba) (oldSmall : Expressible p.addr) :
    portAfter p (setLba size lba ++ writeSector size data ++ setLba size lba) =
      (p.select lba).puts 0 (ofFn data) := by
  have addr : ((p.select lba).puts 0 (ofFn data)).addr = lba := DataPort.addr_puts 0 _ _
  rw [portAfter_append, portAfter_append, portAfter_setLba size small oldSmall, portAfter_writeSector,
    portAfter_setLba size small (by rwa [addr])]
  exact DataPort.select_eq addr

theorem store_reads (size : Nat) (values : List Word) (p : IdePort) :
    (portAfter p (values.map fun value => .read 0x1f0 size value)).store = p.store := by
  induction values generalizing p with
  | nil => rfl
  | cons value values ih => exact (ih (p.get 0).2).trans (p.store_get 0)

theorem diskContent_congr {disk disk' : VmDisk} {lba : Word}
    (same : ∀ other : Word, other ≠ lba → diskContent disk' other.toNat = diskContent disk other.toNat) (other : Nat)
    (different : other ≠ lba.toNat) : diskContent disk' other = diskContent disk other := by
  have outside (disk : VmDisk) (large : ¬ other < 2 ^ 32) : diskContent disk other = none :=
    if_neg fun h => large (h.2.1.trans disk.sectors.isLt)
  by_cases large : other < 2 ^ 32
  · have word : (BitVec.ofNat 32 other).toNat = other := Nat.mod_eq_of_lt large
    have := same (BitVec.ofNat 32 other) fun eq => different (word.symm.trans (congrArg _ eq))
    rwa [word] at this
  · rw [outside disk' large, outside disk large]

theorem sectorTrip_aligned (files : ∀ w, (env.succeeds w).1 = true) (shown : IdeShows vm p) (aligned : p.position = 0)
    (small : Expressible lba) (oldSmall : Expressible p.addr) (below : lba.toNat < vm.disk.sectors.toNat)
    (run : Accesses env vm (sectorTrip size lba data values) vm') : RoundTrip vm vm' lba data values := by
  obtain ⟨after, answered⟩ := run.shows files shown
  have sector : (p.store lba).isSome := by
    rw [shown.store]
    exact (diskContent_isSome_iff shown.active shown.intact _).mpr below
  have written := DataPort.puts_aligned 0 data (show (p.select lba).position = 0 from aligned)
  have stored : ((p.select lba).puts 0 (ofFn data)).store = Function.update p.store lba (some data) :=
    (congrArg DataPort.store written).trans (if_pos sector)
  have final : (portAfter p (sectorTrip size lba data values)).store = Function.update p.store lba (some data) := by
    rw [sectorTrip, portAfter_append, portAfter_written small oldSmall, ← stored]
    exact store_reads size (ofFn values) _
  have content (other : Word) : diskContent vm'.disk other.toNat = Function.update p.store lba (some data) other := by
    rw [← final, after.store]
  refine ⟨?_, ?_, diskContent_congr fun other different => ?_⟩
  · rw [sectorTrip, answered_append, portAfter_written small oldSmall, readSector, answered_reads] at answered
    obtain ⟨-, reads⟩ := answered
    have position : ((p.select lba).puts 0 (ofFn data)).position = 0 :=
      DataPort.position_eq_zero_iff.mpr (congrArg DataPort.index written)
    have here : ((p.select lba).puts 0 (ofFn data)).store ((p.select lba).puts 0 (ofFn data)).addr =
        some data := by
      rw [stored, DataPort.addr_puts]
      exact Function.update_self ..
    rw [DataPort.gets_aligned 0 position here] at reads
    exact values_of_map reads
  · rw [content, Function.update_self]
  · rw [content, Function.update_of_ne different, shown.store]

theorem sectorTrip_unaligned (files : ∀ w, (env.succeeds w).1 = true) (shown : IdeShows vm p)
    (unaligned : p.position ≠ 0) (small : Expressible lba) (oldSmall : Expressible p.addr)
    (run : Accesses env vm (sectorTrip size lba data values) vm') : values 0 = 0 := by
  obtain ⟨-, answered⟩ := run.shows files shown
  rw [sectorTrip, answered_append, portAfter_written small oldSmall, readSector, answered_reads] at answered
  obtain ⟨-, reads⟩ := answered
  have between : 0 < (p.select lba).position := Nat.pos_of_ne_zero unaligned
  rw [first_of_reads reads, DataPort.get_after_puts_unaligned 0 between]
  rfl

/-! ## Accesses that are made -/

theorem exists_setLba (env : Env W) (vm : VmState n W) (size : Nat) (lba : Word) :
    ∃ vm', Accesses env vm (setLba size lba) vm' :=
  ⟨_, .access rfl (.access rfl (.access rfl (.done _)))⟩

theorem exists_writes (env : Env W) (vm : VmState n W) (size : Nat) (bytes : List Byte) :
    ∃ vm', Accesses env vm (bytes.map fun byte => .write 0x1f0 (byte.setWidth 32) size) vm' := by
  induction bytes generalizing vm with
  | nil => exact ⟨vm, .done vm⟩
  | cons byte bytes ih =>
    obtain ⟨vm', rest⟩ := ih (ideWriteData env (byte.setWidth 32) vm)
    exact ⟨vm', .access rfl rest⟩

theorem exists_reads (env : Env W) (vm : VmState n W) (size count : Nat) :
    ∃ (values : Fin count → Word) (vm' : VmState n W),
      Accesses env vm ((ofFn values).map fun value => .read 0x1f0 size value) vm' := by
  induction count generalizing vm with
  | zero => exact ⟨Fin.elim0, vm, .done vm⟩
  | succ count ih =>
    obtain ⟨values, vm', rest⟩ := ih (vmIoIn env 0x1f0 size vm).2
    refine ⟨Fin.cons (vmIoIn env 0x1f0 size vm).1 values, vm', ?_⟩
    rw [ofFn_succ, map_cons]
    exact .access rfl rest

theorem exists_sectorTrip (env : Env W) (vm : VmState n W) (size : Nat) (lba : Word) (data : Sector) :
    ∃ values vm', Accesses env vm (sectorTrip size lba data values) vm' := by
  obtain ⟨vm₁, first⟩ := exists_setLba env vm size lba
  obtain ⟨vm₂, second⟩ := exists_writes env vm₁ size (ofFn data)
  obtain ⟨vm₃, third⟩ := exists_setLba env vm₂ size lba
  obtain ⟨values, vm₄, fourth⟩ := exists_reads env vm₃ size 512
  exact ⟨values, vm₄, ((first.append second).append third).append fourth⟩

end

/-! ## The guest makes a history -/

section
variable {env : Env W}
variable {vm vm' : VmState n W}

theorem execute_accesses {instr : VmInstr} (ran : execute env instr vm = .ok (some vm')) :
    ∃ accesses, Accesses env vm accesses vm' := by
  have read (port : Word) (size : Nat) (cpu : VmCpu) :
      Accesses env vm [.read port size (vmIoIn env port size vm).1] ((vmIoIn env port size vm).2.setCpu cpu) :=
    .access (Prod.mk.eta (p := vmIoIn env port size vm)).symm (.ended (.of_cpu _ cpu))
  have write (port value : Word) (size : Nat) (written : (vmIoOut env port value size vm).map some = .ok (some vm')) :
      Accesses env vm [.write port value size] vm' :=
    .access (map_some_eq_ok.mp written) (.done vm')
  cases ports : instr.op.usesPort with
  | false =>
    obtain ⟨host, stack, rfl, -⟩ := execute_within ports ran
    exact ⟨[], .ended ⟨rfl, rfl, rfl, rfl, rfl, rfl⟩⟩
  | true =>
    obtain ⟨op, dst, src, imm, size⟩ := instr
    cases op <;> simp only [VmOpcode.usesPort, Bool.false_eq_true] at ports
    case inn =>
      obtain rfl := Option.some.inj (Except.ok.inj ran)
      exact ⟨_, read imm 1 _⟩
    case inDx =>
      obtain rfl := Option.some.inj (Except.ok.inj ran)
      exact ⟨_, read (vm.reg edx &&& 0xFFFF) 4 _⟩
    case out => exact ⟨_, write _ _ _ ran⟩
    case outDx => exact ⟨_, write _ _ _ ran⟩

theorem vmRunPass_accesses (ran : vmRunPass env vm = .ok (some vm')) : ∃ accesses, Accesses env vm accesses vm' := by
  unfold vmRunPass at ran
  split at ran
  · cases ran
  · obtain ⟨found, -, ran⟩ := bind_eq_ok.mp ran
    cases found with
    | none => cases ran
    | some instr =>
      obtain ⟨next, executed, moved⟩ := bind_eq_ok.mp ran
      obtain ⟨vm₁, rfl, rfl⟩ := Option.map_eq_some_iff.mp (Except.ok.inj moved)
      obtain ⟨accesses, run⟩ := execute_accesses executed
      have aside : Aside vm₁ (advanceEip instr vm₁) := by
        unfold advanceEip
        split
        · exact ⟨rfl, rfl, rfl, rfl, rfl, rfl⟩
        · exact .of_cpu vm₁ _
      exact ⟨accesses ++ [], run.append (.ended aside)⟩

theorem vmRunStep_accesses {count passes : Nat}
    (ran : vmRunStep env count vm = .ok (passes, vm')) : ∃ accesses, Accesses env vm accesses vm' := by
  refine loop_keeps (P := fun s => ∃ accesses, Accesses env vm accesses s) ?_ ⟨[], .done vm⟩ ran
  rintro s s' ⟨before, run⟩ pass
  obtain ⟨accesses, more⟩ := vmRunPass_accesses pass
  exact ⟨before ++ accesses, run.append more⟩

theorem snapshotDisk_keeps (env : Env W) (disk : VmDisk) (w : W) :
    ∃ checkpoint, (snapshotDisk env disk w).1 = { disk with checkpoint } := by
  unfold snapshotDisk snapshotDiskOn
  split
  · exact vmDiskSnapshotSaveOn_keeps .plain env disk w
  · exact ⟨disk.checkpoint, rfl⟩

theorem vmSnapshotSave_aside (env : Env W) (m : Machine n W) : Aside m.vm (vmSnapshotSave env m).2.vm := by
  unfold vmSnapshotSave vmSnapshotSaveOn
  split
  · exact ⟨rfl, rfl, rfl, rfl, rfl, rfl⟩
  dsimp only
  split
  · exact ⟨rfl, rfl, rfl, rfl, rfl, rfl⟩
  · obtain ⟨checkpoint, disk⟩ := snapshotDisk_keeps env m.vm.disk (snapshotAlloc env m.snapshot m.vm.world).2
    exact .of_checkpoint disk

theorem cycleVmRound_accesses {m r : Machine n W} (round : cycleVmRound env m = .ok (some r)) :
    ∃ accesses, Accesses env m.vm accesses r.vm := by
  unfold cycleVmRound at round
  split at round
  · cases round
  split at round
  · obtain ⟨host, -, rfl⟩ := map_eq_ok.mp (map_some_eq_ok.mp round)
    exact ⟨[], .ended ⟨rfl, rfl, rfl, rfl, rfl, rfl⟩⟩
  · obtain ⟨passes, vm, quantum, rest⟩ := cycle_steps (map_some_eq_ok.mp round)
    obtain ⟨accesses, run⟩ := vmRunStep_accesses quantum
    rcases rest with ⟨-, rfl⟩ | ⟨-, kept⟩
    · exact ⟨accesses, run⟩
    · obtain ⟨world, result⟩ := housekeeping_eq env { m with vm }
      have ticks : Aside vm (ticked { m with vm } world).vm := ⟨rfl, rfl, rfl, rfl, rfl, rfl⟩
      rw [result] at kept
      split at kept
      · cases kept
        exact ⟨accesses ++ [], run.append (.aside ticks (.ended (vmSnapshotSave_aside env _)))⟩
      · cases kept
        exact ⟨accesses ++ [], run.append (.ended ticks)⟩

end

def firstPort (vm : VmState n W) : IdePort where
  addr := 0
  index := 512
  begun := by decide
  fits := le_rfl
  buffer := fun _ => 0
  store := fun lba => diskContent vm.disk lba.toNat

theorem vmBoot_shows {mem : VmMem n} {io : VmIo} {sys : Vrt} {existing : Option HostFile}
    {refused : Bool} {stack : Nat → Word} {w : W} {start : VmState n W}
    (booted : vmBoot env mem io sys disk existing refused stack w = .ok (some start)) :
    IdeShows start (firstPort start) := by
  have intact := vmBoot_intact booted
  obtain ⟨created, made, opens⟩ := bind_eq_ok.mp booted
  cases created with
  | none => cases opens
  | some guest =>
    dsimp only at opens
    split at opens
    · cases opens
    · next opened =>
        cases opens
        obtain ⟨host, -, made⟩ := bind_eq_ok.mp made
        cases host with
        | none => cases made
        | some host =>
          cases made
          exact ⟨rfl, rfl, rfl, rfl, vmDiskInit_opens opened, intact⟩

theorem first_boot :
    ∃ start, vmBoot idleHost guestMem ioStatics vrtStatics noDisk none false (fun _ => 0) () = .ok (some start) ∧
      (5 : Word).toNat < start.disk.sectors.toNat := by
  have boots : (vmBoot idleHost guestMem ioStatics vrtStatics noDisk none false (fun _ => 0) ()).map
      (Option.map fun vm => vm.disk.sectors) = .ok (some 4096) := by decide +kernel
  obtain ⟨made, booted, counted⟩ := map_eq_ok.mp boots
  obtain ⟨start, rfl, sectors⟩ := Option.map_eq_some_iff.mp counted
  refine ⟨start, booted, ?_⟩
  rw [sectors]
  decide

/-- Exactly when the guest's earlier accesses to the data port make up whole sectors. -/
theorem ide_round_trip_iff {env : Env W} (files : ∀ w, (env.succeeds w).1 = true) {mem : VmMem n} {io : VmIo}
    {sys : Vrt} {disk : VmDisk} {existing : Option HostFile} {refused : Bool} {stack : Nat → Word} {w : W}
    {start vm : VmState n W} (booted : vmBoot env mem io sys disk existing refused stack w = .ok (some start))
    {before : List Access} (past : Accesses env start before vm) (size : Nat) {lba : Word} (small : Expressible lba)
    (below : lba.toNat < vm.disk.sectors.toNat) :
    (∀ data, ∃ values vm', Accesses env vm (sectorTrip size lba data values) vm') ∧
      ((∀ data values vm', Accesses env vm (sectorTrip size lba data values) vm' → RoundTrip vm vm' lba data values) ↔
        512 ∣ dataAccesses before) := by
  obtain ⟨shown, -⟩ := past.shows files (vmBoot_shows booted)
  have position : (portAfter (firstPort start) before).position = dataAccesses before % 512 := by
    have first : (firstPort start).position = 0 := DataPort.position_eq_zero_iff.mpr rfl
    rw [position_portAfter, first, zero_add]
  have zero : Expressible (firstPort start).addr := show (0 : Word).toNat < 2 ^ 24 by decide
  have oldSmall := expressible_portAfter zero before
  refine ⟨exists_sectorTrip env vm size lba, ?_⟩
  rw [Nat.dvd_iff_mod_eq_zero, ← position]
  constructor
  · intro trips
    by_contra unaligned
    obtain ⟨values, vm', run⟩ := exists_sectorTrip env vm size lba fun _ => 1
    have reads := congrFun (trips _ values vm' run).reads 0
    rw [sectorTrip_unaligned files shown unaligned small oldSmall run] at reads
    revert reads
    decide
  · intro aligned data values vm' run
    exact sectorTrip_aligned files shown aligned small oldSmall below run

theorem dataAccesses_sectorTrip (size : Nat) (lba : Word) (data : Sector) (values : Fin 512 → Word) :
    dataAccesses (sectorTrip size lba data values) = 1024 := by
  have writes : countP Access.isData (writeSector size data) = 512 := by
    rw [countP_eq_length.mpr (by simp only [writeSector, mem_map]; rintro _ ⟨byte, -, rfl⟩; rfl), writeSector,
      length_map, length_ofFn]
  have reads : countP Access.isData (readSector size values) = 512 := by
    rw [countP_eq_length.mpr (by simp only [readSector, mem_map]; rintro _ ⟨value, -, rfl⟩; rfl), readSector,
      length_map, length_ofFn]
  simp only [dataAccesses, sectorTrip, countP_append, writes, reads]
  rfl

theorem second_sector_trip : ∃ start values vm,
      vmBoot idleHost guestMem ioStatics vrtStatics noDisk none false (fun _ => 0) () = .ok (some start) ∧
      Accesses idleHost start (sectorTrip 4 3 (fun _ => 7) values) vm ∧
      ∀ data values' vm', Accesses idleHost vm (sectorTrip 4 5 data values') vm' → RoundTrip vm vm' 5 data values' := by
  obtain ⟨start, booted, below⟩ := first_boot
  have third : Expressible 3 := show (3 : Word).toNat < 2 ^ 24 by decide
  have fifth : Expressible 5 := show (5 : Word).toNat < 2 ^ 24 by decide
  obtain ⟨makes, trips⟩ := ide_round_trip_iff (fun _ => rfl) booted (.done start) 4 third (lt_trans (by decide) below)
  obtain ⟨values, vm, past⟩ := makes fun _ => 7
  have kept := (trips.mpr (by decide) _ values vm past).others 5 (by decide)
  have shown := vmBoot_shows booted
  have below' : (5 : Word).toNat < vm.disk.sectors.toNat := by
    obtain ⟨after, -⟩ := past.shows (fun _ => rfl) shown
    rw [← diskContent_isSome_iff after.active after.intact, show (5 : Word).toNat = 5 from rfl, kept]
    exact (diskContent_isSome_iff shown.active shown.intact 5).mpr below
  have again := ide_round_trip_iff (fun _ => rfl) booted past 4 fifth below'
  exact ⟨start, values, vm, booted, past, again.2.mpr (by rw [dataAccesses_sectorTrip]; decide)⟩

theorem sector_through_used_port : ∃ start value vm values vm',
      vmBoot idleHost guestMem ioStatics vrtStatics noDisk none false (fun _ => 0) () = .ok (some start) ∧
      Accesses idleHost start [.read 0x1f0 4 value] vm ∧ 5 < vm.disk.sectors.toNat ∧
      Accesses idleHost vm (sectorTrip 4 5 (fun _ => 1) values) vm' ∧ ¬ RoundTrip vm vm' 5 (fun _ => 1) values := by
  obtain ⟨start, booted, below⟩ := first_boot
  let vm := (vmIoIn idleHost 0x1f0 4 start).2
  have read : Accesses idleHost start [.read 0x1f0 4 (vmIoIn idleHost 0x1f0 4 start).1] vm := .access rfl (.done vm)
  obtain ⟨shown, -⟩ := read.shows (fun _ => rfl) (vmBoot_shows booted)
  have disk : vm.disk = start.disk := vmIoIn_disk idleHost start 0x1f0 4
  obtain ⟨values, vm', run⟩ := exists_sectorTrip idleHost vm 4 5 fun _ => 1
  refine ⟨start, _, vm, values, vm', booted, read, by rw [disk]; exact below, run, fun trip => ?_⟩
  have position : (portAfter (firstPort start) [.read 0x1f0 4 (vmIoIn idleHost 0x1f0 4 start).1]).position = 1 := by
    rfl
  have zero := sectorTrip_unaligned (fun _ => rfl) shown (by rw [position]; decide)
    (show (5 : Word).toNat < 2 ^ 24 by decide) (show (0 : Word).toNat < 2 ^ 24 by decide) run
  rw [trip.reads] at zero
  revert zero
  decide

/-- A run is a history of the port: the device is where the accesses leave it, and each of them was answered. -/
theorem vmRunCycles_ide {env : Env W} (files : ∀ w, (env.succeeds w).1 = true) {m r : Machine n W} {p : IdePort}
    (shown : IdeShows m.vm p) {fuel : Nat} {maxCycles : Word} (ran : vmRunCycles env fuel maxCycles m = .ok (some r)) :
    ∃ accesses, Accesses env m.vm accesses r.vm ∧ IdeShows r.vm (portAfter p accesses) ∧ Answered p accesses := by
  obtain ⟨rounds, final, pq, loops, -, rfl⟩ := rounds_of_vmRunCycles ran
  obtain ⟨accesses, run⟩ : ∃ accesses, Accesses env m.vm accesses final.vm := by
    refine loop_keeps (P := fun r => ∃ accesses, Accesses env m.vm accesses r.vm) ?_
      ⟨[], .ended ⟨rfl, rfl, rfl, rfl, rfl, rfl⟩⟩ loops
    rintro s s' ⟨before, run⟩ round
    have same : cycleVmRound env s = .ok (some s') := by
      unfold cycleRound at round
      split at round
      · cases round
      · next running => rwa [cycleVmRound, if_neg fun halted => running (by simp [halted])]
    obtain ⟨accesses, more⟩ := cycleVmRound_accesses same
    exact ⟨before ++ accesses, run.append more⟩
  have aside : Aside final.vm (setHost false (withQueue pq final)).vm := ⟨rfl, rfl, rfl, rfl, rfl, rfl⟩
  have ended := run.append (.ended aside)
  exact ⟨_, ended, ended.shows files shown⟩

/-- `mov edx, 0x1f0`, `in eax, dx`, `hlt`. -/
def portReader : List Byte := [0xBA, 0xF0, 0x01, 0x00, 0x00, 0xED, 0xF4]

theorem bootWith_shows {program : List Byte} {start : VmState guestRamSize Unit}
    (booted : bootWith program = some start) : IdeShows start (firstPort start) := by
  unfold bootWith at booted
  split at booted
  · next vm made =>
      split at booted
      · next mem _ =>
          cases booted
          have aside : Aside vm (vm.setMem mem) := ⟨rfl, rfl, rfl, rfl, rfl, rfl⟩
          exact aside.shows (vmBoot_shows made)
      · cases booted
  · cases booted

theorem first_run_ide : ∃ start r accesses, bootWith portReader = some start ∧
      vmRunCycles idleHost 2 1 (.ofGuest start) = .ok (some r) ∧ 0 < dataAccesses accesses ∧
      Accesses idleHost start accesses r.vm ∧ IdeShows r.vm (portAfter (firstPort start) accesses) ∧
      Answered (firstPort start) accesses := by
  have runs : ((bootWith portReader).bind fun vm => (vmRunCycles idleHost 2 1 (.ofGuest vm)).toOption.join).map
      (fun r => r.vm.io.ideByteIdx.val) = some 1 := by decide +kernel
  obtain ⟨r, found, index⟩ := Option.map_eq_some_iff.mp runs
  obtain ⟨start, booted, ran⟩ := Option.bind_eq_some_iff.mp found
  have ran := toOption_join_eq_some.mp ran
  obtain ⟨accesses, run, shown, answered⟩ := vmRunCycles_ide (p := firstPort start) (fun _ => rfl)
    (bootWith_shows booted) ran
  refine ⟨start, r, accesses, booted, ran, Nat.pos_of_ne_zero fun none => ?_, run, shown, answered⟩
  have first : (firstPort start).position = 0 := DataPort.position_eq_zero_iff.mpr rfl
  have position := position_portAfter (firstPort start) accesses
  rw [none, first, DataPort.position, shown.index, index] at position
  revert position
  decide

end Flinstone.Vm
