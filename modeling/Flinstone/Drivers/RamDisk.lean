import Flinstone.Mm.Primitives

/-!
# The RAM disk

`ramdisk.s`.
-/

namespace Flinstone.Drivers.RamDisk
open Flinstone.Lib Flinstone.Mm Flinstone.Mm.A64 Code Reg Function

-- `cmp` together with the branch behind it
def cmpBlt (n : Reg) (v : BitVec 64) (target : Nat) : Instr := jump (fun s => (s.regs n).slt v) target
def cmpBge (n m : Reg) (target : Nat) : Instr := jump (fun s => !(s.regs n).slt (s.regs m)) target
def movImm (d : Reg) (v : BitVec 64) : Instr := op fun s => s.set d v
def mul (d n m : Reg) : Instr := op fun s => s.set d (s.regs n * s.regs m)
def add (d n m : Reg) : Instr := op fun s => s.set d (s.regs n + s.regs m)

/-- `storage` is the address of `g_ramdisk_storage`. -/
def ramdiskRead (storage : BitVec 64) : List Instr := [
  cmpBlt x0 0 16, movImm x2 8192, cmpBge x0 x2 16,
  movImm x3 storage, movImm x4 512, mul x4 x0 x4, add x3 x3 x4, mov x0 x1, mov x1 x3, movImm x2 512,
  -- 10: `.Lrd_copy`
  ldr 1 x3 x1, str 1 x3 x0, subs x2 x2 1, bne 10, movImm x0 0, ret,
  -- 16: `.Lrd_oob`
  movImm x0 (-1), ret]

def ramdiskWrite (storage : BitVec 64) : List Instr := [
  cmpBlt x0 0 15, movImm x2 8192, cmpBge x0 x2 15,
  movImm x3 storage, movImm x4 512, mul x4 x0 x4, add x3 x3 x4, mov x0 x3, movImm x2 512,
  -- 9: `.Lwr_copy`
  ldr 1 x3 x1, str 1 x3 x0, subs x2 x2 1, bne 9, movImm x0 0, ret,
  -- 15: `.Lwr_oob`
  movImm x0 (-1), ret]

variable {storage : BitVec 64} {code rest : List Instr} {mem : Memory} {good good' : Memory → Prop} {s s' : Cpu Reg}
  {pc exit : Nat}

-- the arguments of both routines
def lba (s : Cpu Reg) : Nat := (s.regs x0).toNat
def buf (s : Cpu Reg) : Nat := (s.regs x1).toNat

def Answers (s : Cpu Reg) (good : Memory → Prop) (s' : Cpu Reg) : Prop :=
  if lba s < 8192 then s'.regs x0 = 0 ∧ good s'.mem else s'.regs x0 = -1 ∧ s'.mem = s.mem

theorem Answers.mono (answer : Answers s good s') (weaker : lba s < 8192 → ∀ mem, good mem → good' mem) :
    Answers s good' s' := by
  unfold Answers at *
  split at answer
  · next inside =>
      rw [if_pos inside]
      exact ⟨answer.1, weaker inside _ answer.2⟩
  · next outside => rwa [if_neg outside]

theorem returns_checked (low : code[0]? = some (cmpBlt x0 0 pc)) (limit : code[1]? = some (movImm x2 8192))
    (high : code[2]? = some (cmpBge x0 x2 pc)) (refuses : code[pc]? = some (movImm x0 (-1)))
    (leaves : code[pc + 1]? = some ret)
    (inside : lba s < 8192 → Returns code (fun s' => s'.regs x0 = 0 ∧ good s'.mem) 3 (s.set x2 8192)) :
    Returns code (Answers s good) 0 s := by
  have refused (above : ¬ lba s < 8192) (t : Cpu Reg) (kept : t.mem = s.mem) : Returns code (Answers s good) pc t := by
    refine .op refuses (.ret leaves ?_)
    rw [Answers, if_neg above]
    exact ⟨rfl, kept⟩
  have signed : (s.regs x0).toInt = if 2 * lba s < 2 ^ 64 then (lba s : Int) else lba s - 2 ^ 64 :=
    BitVec.toInt_eq_toNat_cond _
  have small : lba s < 2 ^ 64 := (s.regs x0).isLt
  refine .jump low ?_
  by_cases negative : (s.regs x0).toInt < 0
  · rw [if_pos (BitVec.slt_iff_toInt_lt.mpr negative)]
    exact refused (by omega) s rfl
  rw [if_neg (mt BitVec.slt_iff_toInt_lt.mp negative)]
  refine .op limit (.jump high ?_)
  have compared : (!((s.set x2 8192).regs x0).slt ((s.set x2 8192).regs x2)) = !decide ((s.regs x0).toInt < 8192) := rfl
  rw [compared]
  by_cases below : (s.regs x0).toInt < 8192
  · rw [decide_eq_true below]
    have less : lba s < 8192 := by omega
    refine (inside less).mono fun s' answer => ?_
    rwa [Answers, if_pos less]
  · rw [decide_eq_false below]
    exact refused (by omega) _ rfl

theorem returns_copy {d a : BitVec 64} (loop : Loop code x2 pc exit)
    (body : code.drop pc = ldr 1 x3 x1 :: str 1 x3 x0 :: subs x2 x2 1 :: bne pc :: rest)
    (after : code[exit]? = some (movImm x0 0)) (leaves : code[exit + 1]? = some ret) (fits : d.toNat + 512 ≤ 2 ^ 64)
    (fits' : a.toNat + 512 ≤ 2 ^ 64) (apart : d.toNat + 512 ≤ a.toNat ∨ a.toNat + 512 ≤ d.toNat) (kept : s.mem = mem)
    (dst : s.regs x0 = d) (src : s.regs x1 = a) (counted : s.regs x2 = 512) :
    Returns code (fun s' => s'.regs x0 = 0 ∧ s'.mem = mem.copy d.toNat a.toNat 512) pc s := by
  refine loop.returns 1 (P := Copying x0 x1 mem d.toNat a.toNat) (n := 512) (fun k t le here => ?_)
    (.start kept dst src) (by rw [counted]; decide) (by rw [counted]; decide)
    fun t here => .op after (.ret leaves ⟨rfl, ?_⟩)
  · rw [body]
    exact here.pass (by decide) le fits fits' (by omega) (t.loaded_mod x1 (by decide)) rfl rfl rfl
  · rw [counted] at here
    exact here.mem

def sectorAt (storage : BitVec 64) (k : Nat) : Nat := storage.toNat + 512 * k

structure Calls (storage : BitVec 64) (s : Cpu Reg) : Prop where
  whole : sectorAt storage 8192 ≤ 2 ^ 64
  fits : buf s + 512 ≤ 2 ^ 64
  apart : buf s + 512 ≤ sectorAt storage 0 ∨ sectorAt storage 8192 ≤ buf s

theorem Calls.sector (calls : Calls storage s) (inside : lba s < 8192) :
    (storage + s.regs x0 * 512).toNat = sectorAt storage (lba s) := by
  have whole := calls.whole
  unfold sectorAt lba at *
  rw [BitVec.toNat_add, BitVec.toNat_mul, show (512 : BitVec 64).toNat = 512 from rfl,
    Nat.mod_eq_of_lt (show (s.regs x0).toNat * 512 < 2 ^ 64 by omega), Nat.mod_eq_of_lt (by omega), mul_comm]

theorem ramdiskRead_returns (calls : Calls storage s) :
    Returns (ramdiskRead storage) (Answers s (· = s.mem.copy (buf s) (sectorAt storage (lba s)) 512)) 0 s := by
  have loop : Loop (ramdiskRead storage) x2 10 14 := ⟨rfl, rfl, fun _ => rfl, fun _ => rfl⟩
  refine returns_checked rfl rfl rfl rfl rfl fun inside => ?_
  have place := calls.sector inside
  obtain ⟨whole, fits, apart⟩ := calls
  rw [← place]
  unfold sectorAt buf at *
  exact .op rfl <| .op rfl <| .op rfl <| .op rfl <| .op rfl <| .op rfl <| .op rfl <|
    returns_copy loop rfl rfl rfl fits (by omega) (by omega) rfl rfl rfl rfl

theorem ramdiskWrite_returns (calls : Calls storage s) :
    Returns (ramdiskWrite storage) (Answers s (· = s.mem.copy (sectorAt storage (lba s)) (buf s) 512)) 0 s := by
  have loop : Loop (ramdiskWrite storage) x2 9 13 := ⟨rfl, rfl, fun _ => rfl, fun _ => rfl⟩
  refine returns_checked rfl rfl rfl rfl rfl fun inside => ?_
  have place := calls.sector inside
  obtain ⟨whole, fits, apart⟩ := calls
  rw [← place]
  unfold sectorAt buf at *
  exact .op rfl <| .op rfl <| .op rfl <| .op rfl <| .op rfl <| .op rfl <|
    returns_copy loop rfl rfl rfl (by omega) fits (by omega) rfl rfl rfl rfl

/-! ## What a sector holds -/

abbrev Sectors := Nat → Nat → BitVec 8

/-- The memory after calls of both routines, and what was last written to each sector. -/
inductive Session (storage : BitVec 64) : Memory → Sectors → Prop where
  | boot {mem : Memory} (zeroed : ∀ x, sectorAt storage 0 ≤ x → x < sectorAt storage 8192 → mem x = 0) :
      Session storage mem fun _ _ => 0
  | elsewhere {mem mem' : Memory} {held : Sectors} (before : Session storage mem held)
      (kept : ∀ x, sectorAt storage 0 ≤ x → x < sectorAt storage 8192 → mem' x = mem x) : Session storage mem' held
  | read {s s' : Cpu Reg} {fuel : Nat} {held : Sectors} (before : Session storage s.mem held) (calls : Calls storage s)
      (ran : run (ramdiskRead storage) fuel 0 s = some s') : Session storage s'.mem held
  | write {s s' : Cpu Reg} {fuel : Nat} {held : Sectors} (before : Session storage s.mem held) (calls : Calls storage s)
      (ran : run (ramdiskWrite storage) fuel 0 s = some s') : Session storage s'.mem
        (if lba s < 8192 then update held (lba s) fun i => s.mem (buf s + i) else held)

theorem Session.holds {held : Sectors} (session : Session storage mem held) {k i : Nat} (inside : k < 8192)
    (short : i < 512) : mem (sectorAt storage k + i) = held k i := by
  have within : sectorAt storage 0 ≤ sectorAt storage k + i ∧ sectorAt storage k + i < sectorAt storage 8192 := by
    unfold sectorAt
    omega
  induction session with
  | boot zeroed => exact zeroed _ within.1 within.2
  | elsewhere before kept ih => rw [kept _ within.1 within.2, ih]
  | read before calls ran ih =>
    have answer := (ramdiskRead_returns calls).result ran
    unfold Answers at answer
    split at answer
    · have apart := calls.apart
      rw [answer.2, Memory.copy_apart (by omega), ih]
    · rw [answer.2, ih]
  | @write s _ _ _ before calls ran ih =>
    have answer := (ramdiskWrite_returns calls).result ran
    unfold Answers at answer
    split at answer
    · next written =>
        rw [if_pos written, answer.2]
        by_cases same : k = lba s
        · rw [same, update_self, Memory.copy_at short]
        · rw [update_of_ne same, Memory.copy_apart (by unfold sectorAt; omega), ih]
    · next refused => rw [if_neg refused, answer.2, ih]

/-- Both routines return; a read gives what was last written to the sector, and neither touches anything else. -/
theorem ramdisk_stores {held : Sectors} (session : Session storage s.mem held) (calls : Calls storage s) :
    Returns (ramdiskRead storage) (Answers s fun mem => (∀ i < 512, mem (buf s + i) = held (lba s) i) ∧
        ∀ x, x < buf s ∨ buf s + 512 ≤ x → mem x = s.mem x) 0 s ∧
      Returns (ramdiskWrite storage) (Answers s fun mem => ∀ x, x < sectorAt storage (lba s) ∨
        sectorAt storage (lba s) + 512 ≤ x → mem x = s.mem x) 0 s := by
  refine ⟨(ramdiskRead_returns calls).mono fun s' answer => answer.mono ?_,
    (ramdiskWrite_returns calls).mono fun s' answer => answer.mono ?_⟩
  · rintro inside _ rfl
    refine ⟨fun i short => ?_, fun x apart => Memory.copy_apart apart⟩
    rw [Memory.copy_at short, session.holds inside short]
  · rintro - _ rfl x apart
    exact Memory.copy_apart apart

/-- A sector is written, the buffer cleared, and the sector read back. -/
theorem ramdisk_stores_written :
    let s : Cpu Reg := ⟨fun r => if r = x0 then 3 else 0, fun x => if x = 7 then 1 else 0, false⟩
    ∃ fuel s', run (ramdiskWrite 512) fuel 0 s = some s' ∧
      Returns (ramdiskRead 512) (fun t => t.regs x0 = 0 ∧ t.mem 7 = 1) 0
        { s with mem := fun x => if x < 512 then 0 else s'.mem x } := by
  intro s
  have calls : Calls 512 s := ⟨by decide, by decide, by decide⟩
  have booted : Session 512 s.mem fun _ _ => 0 := .boot fun x (above : 512 ≤ x) _ => if_neg (by omega)
  obtain ⟨fuel, s', ran, -⟩ := (ramdisk_stores booted calls).2
  let cleared : Memory := fun x => if x < 512 then 0 else s'.mem x
  have session : Session 512 cleared _ := (booted.write calls ran).elsewhere
    fun x (above : 512 ≤ x) _ => if_neg (by omega)
  have reads := (ramdisk_stores (s := { s with mem := cleared }) session ⟨calls.whole, calls.fits, calls.apart⟩).1
  exact ⟨fuel, s', ran, reads.mono fun t answer => ⟨answer.1, answer.2.1 7 (by decide)⟩⟩

end Flinstone.Drivers.RamDisk
