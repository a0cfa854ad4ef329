import Flinstone.Vm.Cpu

/-!
# Instruction decoding

`vm_decode.c`.
-/

namespace Flinstone.Vm

inductive VmOpcode where
  | nop | hlt | inn | out | inDx | outDx | mov | add | sub | inc | dec | cmp | test | push | pop
  | jmp | jz | jnz | int | iret | ret | stosb | movCr | unknown
  deriving DecidableEq

structure VmInstr where
  op : VmOpcode
  dstReg : Option Reg
  srcReg : Option Reg
  imm : Word
  size : Nat

structure VmSib where
  scale : Nat
  index : Reg
  base : Reg

structure VmModrm where
  mod : Nat
  reg : Reg
  rm : Reg
  disp : Word
  dispBytes : Nat
  sib : Option VmSib
  size : Nat

variable {n : Nat}

def regField (b : Byte) (shift : Nat) : Reg := Fin.ofNat 8 (b.toNat >>> shift)

def disp32At (ram : Ram n) (addr : Word) : Except Stop Word := do
  let b0 ← byteAt ram addr.toNat
  let b1 ← byteAt ram (addr + 1).toNat
  let b2 ← byteAt ram (addr + 2).toNat
  let b3 ← byteAt ram (addr + 3).toNat
  return wordOf [b0, b1, b2, b3]

def decodeDisp (ram : Ram n) (addr : Word) (mod : Nat) (rm : Reg) : Except Stop (Word × Nat × Nat) :=
  if mod = 1 then do
    let d ← byteAt ram (addr + 1).toNat
    return (d.signExtend 32, 1, 2)
  else if mod = 2 ∨ mod = 0 ∧ rm = 5 then do
    let d ← disp32At ram (addr + 1)
    return (d, 4, 5)
  else .ok (0, 0, 1)

def decodeSib (ram : Ram n) (addr : Word) (mod : Nat) (m : VmModrm) : Except Stop VmModrm := do
  let s ← byteAt ram (addr + BitVec.ofNat 32 m.size).toNat
  -- a two-bit field: scales 4 and 8 are stored as 0
  let sib : VmSib := ⟨2 ^ (s.toNat >>> 6) % 4, regField s 3, regField s 0⟩
  if mod = 0 ∧ sib.base = 5 then
    let d ← disp32At ram (addr + BitVec.ofNat 32 (m.size + 1))
    return { m with sib := some sib, disp := d, dispBytes := 4, size := m.size + 5 }
  else
    return { m with sib := some sib, size := m.size + 1 }

def decodeModrm (ram : Ram n) (addr : Word) : Except Stop (Option VmModrm) :=
  if n < 6 ∨ (addr + 6).toNat > n then .ok none
  else do
    let b ← byteAt ram addr.toNat
    let mod := b.toNat >>> 6
    let rm := regField b 0
    let (disp, dispBytes, size) ← decodeDisp ram addr mod rm
    let m : VmModrm := ⟨mod, regField b 3, rm, disp, dispBytes, none, size⟩
    if mod ≠ 3 ∧ rm = 4 then
      return some (← decodeSib ram addr mod m)
    else
      return some m

-- MOV r32, CRn (`0F 20`) and MOV CRn, r32 (`0F 22`)
def decodeMovCr (ram : Ram n) (addr : Word) (imm : Word) : Except Stop (Option VmInstr) := do
  match ← decodeModrm ram (addr + 2) with
  | none => return none
  | some m =>
    if m.mod ≠ 3 then return none
    else return some ⟨.movCr, some m.reg, some m.rm, imm, 2 + m.size⟩

-- ADD and SUB between registers; `toRm` for the forms whose destination is r/m
def decodeAlu (ram : Ram n) (addr : Word) (op : VmOpcode) (toRm : Bool) : Except Stop (Option VmInstr) := do
  match ← decodeModrm ram (addr + 1) with
  | none => return none
  | some m =>
    if m.mod ≠ 3 then return none
    else if toRm then return some ⟨op, some m.rm, some m.reg, 0, 1 + m.size⟩
    else return some ⟨op, some m.reg, some m.rm, 0, 1 + m.size⟩

-- ADD/SUB r/m32, imm8; the reg field extends the opcode
def decodeAluImm8 (ram : Ram n) (addr : Word) : Except Stop (Option VmInstr) := do
  match ← decodeModrm ram (addr + 1) with
  | none => return none
  | some m =>
    if m.mod ≠ 3 then return none
    else if (addr + BitVec.ofNat 32 (m.size + 2)).toNat > n then return none
    else if m.reg = 0 ∨ m.reg = 5 then
      let imm ← byteAt ram (addr + BitVec.ofNat 32 (m.size + 1)).toNat
      return some ⟨if m.reg = 0 then .add else .sub, some m.rm, none, imm.signExtend 32, m.size + 2⟩
    else return none

def decodeMovR8Imm8 (ram : Ram n) (addr : Word) (reg : Reg) : Except Stop (Option VmInstr) := do
  let imm ← byteAt ram (addr + 1).toNat
  return some ⟨.mov, some reg, none, imm.setWidth 32, 2⟩

def decodeMovR32Imm32 (ram : Ram n) (addr : Word) (reg : Reg) : Except Stop (Option VmInstr) := do
  let imm ← disp32At ram (addr + 1)
  return some ⟨.mov, some reg, none, imm, 5⟩

-- the one-byte opcodes without a ModRM byte; `imm` is the byte that follows
def decodePlain (opcode : Nat) (imm : Byte) : Option VmInstr :=
  match opcode with
  | 0x90 => some ⟨.nop, none, none, 0, 1⟩
  | 0xF4 => some ⟨.hlt, none, none, 0, 1⟩
  | 0xE4 => some ⟨.inn, none, none, imm.setWidth 32, 2⟩
  | 0xE6 => some ⟨.out, none, none, imm.setWidth 32, 2⟩
  | 0xED => some ⟨.inDx, none, none, 0, 1⟩
  | 0xEF => some ⟨.outDx, none, none, 0, 1⟩
  | 0xEB => some ⟨.jmp, none, none, imm.signExtend 32, 2⟩
  | 0xC3 => some ⟨.ret, none, none, 0, 1⟩
  | 0xCD => some ⟨.int, none, none, imm.setWidth 32, 2⟩
  | 0xCF => some ⟨.iret, none, none, 0, 1⟩
  | 0xAA => some ⟨.stosb, none, none, 0, 1⟩
  | 0x3C => some ⟨.cmp, some 0, none, imm.setWidth 32, 2⟩
  | 0xA8 => some ⟨.test, some 0, none, imm.setWidth 32, 2⟩
  | 0x74 => some ⟨.jz, none, none, imm.signExtend 32, 2⟩
  | 0x75 => some ⟨.jnz, none, none, imm.signExtend 32, 2⟩
  | opcode =>
    let reg := some (Fin.ofNat 8 opcode)
    if 0x40 ≤ opcode ∧ opcode ≤ 0x47 then some ⟨.inc, reg, none, 0, 1⟩
    else if 0x48 ≤ opcode ∧ opcode ≤ 0x4F then some ⟨.dec, reg, none, 0, 1⟩
    else if 0x50 ≤ opcode ∧ opcode ≤ 0x57 then some ⟨.push, reg, none, 0, 1⟩
    else if 0x58 ≤ opcode ∧ opcode ≤ 0x5F then some ⟨.pop, reg, none, 0, 1⟩
    else none

def decodeOneByte (ram : Ram n) (addr : Word) (opcode : Nat) (imm : Byte) : Except Stop (Option VmInstr) :=
  if opcode = 0x01 then decodeAlu ram addr .add true
  else if opcode = 0x03 then decodeAlu ram addr .add false
  else if opcode = 0x29 then decodeAlu ram addr .sub true
  else if opcode = 0x2B then decodeAlu ram addr .sub false
  else if opcode = 0x83 then decodeAluImm8 ram addr
  else if 0xB0 ≤ opcode ∧ opcode ≤ 0xB7 then decodeMovR8Imm8 ram addr (Fin.ofNat 8 opcode)
  else if 0xB8 ≤ opcode ∧ opcode ≤ 0xBF then decodeMovR32Imm32 ram addr (Fin.ofNat 8 opcode)
  else .ok (decodePlain opcode imm)

def secondByte (ram : Ram n) (addr : Word) : Except Stop Byte :=
  if (addr + 1).toNat < n then byteAt ram (addr + 1).toNat else .ok 0

def vmDecode (ram : Ram n) (addr : Word) : Except Stop (Option VmInstr) :=
  if n < 2 then .ok none
  else do
    let b0 ← byteAt ram addr.toNat
    let b1 ← secondByte ram addr
    if b0 = 0x0F then
      if b1 = 0x20 then decodeMovCr ram addr 0
      else if b1 = 0x22 then decodeMovCr ram addr 1
      else return none
    else decodeOneByte ram addr b0.toNat b1

end Flinstone.Vm
