import Flinstone.Vm.Isolation

/-! # Instructions as bytes -/

namespace Flinstone.Vm
open Flinstone.Lib BitVec

variable {n : Nat}

def registerForm (modrm : Byte) (form : Reg → Reg → Option VmInstr) : Option VmInstr :=
  if modrm.toNat >>> 6 = 3 then form (regField modrm 3) (regField modrm 0) else none

def decodeWindow (b : Nat → Byte) : Option VmInstr :=
  let opcode := (b 0).toNat
  if opcode = 0x0F then
    if b 1 = 0x20 then registerForm (b 2) fun reg rm => some ⟨.movCr, some reg, some rm, 0, 3⟩
    else if b 1 = 0x22 then registerForm (b 2) fun reg rm => some ⟨.movCr, some reg, some rm, 1, 3⟩
    else none
  else if opcode = 0x01 then registerForm (b 1) fun reg rm => some ⟨.add, some rm, some reg, 0, 2⟩
  else if opcode = 0x03 then registerForm (b 1) fun reg rm => some ⟨.add, some reg, some rm, 0, 2⟩
  else if opcode = 0x29 then registerForm (b 1) fun reg rm => some ⟨.sub, some rm, some reg, 0, 2⟩
  else if opcode = 0x2B then registerForm (b 1) fun reg rm => some ⟨.sub, some reg, some rm, 0, 2⟩
  else if opcode = 0x83 then registerForm (b 1) fun reg rm =>
    if reg = 0 ∨ reg = 5 then
      some ⟨if reg = 0 then .add else .sub, some rm, none, (b 2).signExtend 32, 3⟩
    else none
  else if 0xB0 ≤ opcode ∧ opcode ≤ 0xB7 then
    some ⟨.mov, some (Fin.ofNat 8 opcode), none, (b 1).setWidth 32, 2⟩
  else if 0xB8 ≤ opcode ∧ opcode ≤ 0xBF then
    some ⟨.mov, some (Fin.ofNat 8 opcode), none, wordOf [b 1, b 2, b 3, b 4], 5⟩
  else decodePlain opcode (b 1)

/-! ## The decoder reads a window -/

def byteFrom (ram : Ram n) (index : Nat) : Byte := if inside : index < n then ram ⟨index, inside⟩ else 0

variable {ram : Ram n} {index : Nat} {bytes : List Byte} {addr : Word} {instr : VmInstr}

theorem byteFrom_of_byteAt {b : Byte} (read : byteAt ram index = .ok b) : byteFrom ram index = b := by
  unfold byteAt at read
  unfold byteFrom
  split at read
  · next inside =>
      rw [dif_pos inside]
      exact Except.ok.inj read
  · cases read

theorem length_copyOut {start count : Nat} (read : copyOut ram start count = .ok bytes) : bytes.length = count := by
  unfold copyOut at read
  split at read
  · cases read
    simp
  · cases read

theorem decodeSib_mod {mod : Nat} {m m' : VmModrm} (decoded : decodeSib ram addr mod m = .ok m') : m'.mod = m.mod := by
  obtain ⟨s, -, decoded⟩ := bind_eq_ok.mp decoded
  simp only at decoded
  split at decoded
  · obtain ⟨d, -, decoded⟩ := bind_eq_ok.mp decoded
    cases decoded
    rfl
  · cases decoded
    rfl

section
variable (ram : Ram n) {addr : Word} (sized : Sized n) (inside : addr.toNat + 16 ≤ n)
include sized inside

theorem byteAt_window {k : Nat} (near : k < 16) :
    byteAt ram (addr + BitVec.ofNat 32 k).toNat = .ok (byteFrom ram (addr.toNat + k)) := by
  have below : addr.toNat + k < n := by omega
  rw [toNat_offset sized below.le, byteAt_of_lt below, byteFrom, dif_pos below]

theorem byteAt_first : byteAt ram addr.toNat = .ok (byteFrom ram (addr.toNat + 0)) := by
  have first := byteAt_window ram sized inside (k := 0) (by omega)
  rwa [show addr + BitVec.ofNat 32 0 = addr from add_zero addr] at first

theorem decodeModrm_window {k : Nat} (near : k ≤ 2) : ∃ m, decodeModrm ram (addr + BitVec.ofNat 32 k) = .ok (some m) ∧
      m.mod = (byteFrom ram (addr.toNat + k)).toNat >>> 6 ∧
      (m.mod = 3 → m.reg = regField (byteFrom ram (addr.toNat + k)) 3 ∧
        m.rm = regField (byteFrom ram (addr.toNat + k)) 0 ∧ m.size = 1) := by
  have moved : (addr + BitVec.ofNat 32 k).toNat = addr.toNat + k := toNat_offset sized (by omega)
  have sum : (addr + BitVec.ofNat 32 k + BitVec.ofNat 32 6).toNat = addr.toNat + k + 6 := by
    rw [toNat_offset sized (by omega), moved]
  change (addr + BitVec.ofNat 32 k + 6).toNat = _ at sum
  unfold decodeModrm
  rw [if_neg (by omega), byteAt_window ram sized inside (by omega)]
  generalize byteFrom ram (addr.toNat + k) = b
  obtain ⟨disp, count, size, decoded, short⟩ := decodeDisp_succeeds ram sized
    (by omega : (addr + BitVec.ofNat 32 k).toNat + 5 ≤ n) (b.toNat >>> 6) (regField b 0)
  simp only [bind, Except.bind, pure, pure, decoded]
  by_cases registers : b.toNat >>> 6 = 3
  · rw [if_neg (by omega)]
    refine ⟨_, rfl, rfl, fun _ => ⟨rfl, rfl, ?_⟩⟩
    rw [registers] at decoded
    cases decoded
    rfl
  · split
    · obtain ⟨m, decoded, -⟩ := decodeSib_succeeds ram sized (b.toNat >>> 6)
        (m := ⟨b.toNat >>> 6, regField b 3, regField b 0, disp, count, none, size⟩) short
        (by omega : (addr + BitVec.ofNat 32 k).toNat + 10 ≤ n)
      have same : m.mod = b.toNat >>> 6 := decodeSib_mod decoded
      rw [decoded]
      exact ⟨m, rfl, same, fun three => absurd (same.symm.trans three) registers⟩
    · exact ⟨_, rfl, rfl, fun same => absurd same registers⟩

theorem decodeMovCr_window (imm : Word) :
    decodeMovCr ram addr imm = .ok (registerForm (byteFrom ram (addr.toNat + 2)) fun reg rm =>
      some ⟨.movCr, some reg, some rm, imm, 3⟩) := by
  obtain ⟨m, decoded, mod, fields⟩ := decodeModrm_window ram sized inside (k := 2) le_rfl
  change decodeModrm ram (addr + 2) = _ at decoded
  unfold decodeMovCr registerForm
  simp only [decoded, bind, Except.bind, ← mod]
  by_cases three : m.mod = 3
  · obtain ⟨reg, rm, size⟩ := fields three
    rw [if_neg (not_not.mpr three), if_pos three, reg, rm, size]
    rfl
  · rw [if_pos three, if_neg three]
    rfl

theorem decodeAlu_window (op : VmOpcode) (toRm : Bool) :
    decodeAlu ram addr op toRm = .ok (registerForm (byteFrom ram (addr.toNat + 1)) fun reg rm =>
      if toRm then some ⟨op, some rm, some reg, 0, 2⟩ else some ⟨op, some reg, some rm, 0, 2⟩) := by
  obtain ⟨m, decoded, mod, fields⟩ := decodeModrm_window ram sized inside (k := 1) (by omega)
  change decodeModrm ram (addr + 1) = _ at decoded
  unfold decodeAlu registerForm
  simp only [decoded, bind, Except.bind, ← mod]
  by_cases three : m.mod = 3
  · obtain ⟨reg, rm, size⟩ := fields three
    rw [if_neg (not_not.mpr three), if_pos three, reg, rm, size]
    cases toRm <;> rfl
  · rw [if_pos three, if_neg three]
    rfl

theorem decodeAluImm8_window : decodeAluImm8 ram addr = .ok (registerForm (byteFrom ram (addr.toNat + 1)) fun reg rm =>
      if reg = 0 ∨ reg = 5 then
        some ⟨if reg = 0 then .add else .sub, some rm, none, (byteFrom ram (addr.toNat + 2)).signExtend 32, 3⟩
      else none) := by
  obtain ⟨m, decoded, mod, fields⟩ := decodeModrm_window ram sized inside (k := 1) (by omega)
  have third := byteAt_window ram sized inside (k := 2) (by omega)
  have sum : (addr + BitVec.ofNat 32 3).toNat = addr.toNat + 3 := toNat_offset sized (by omega)
  change decodeModrm ram (addr + 1) = _ at decoded
  unfold decodeAluImm8 registerForm
  simp only [decoded, bind, Except.bind, ← mod]
  by_cases three : m.mod = 3
  · obtain ⟨reg, rm, size⟩ := fields three
    rw [if_neg (not_not.mpr three), if_pos three, reg, rm, size, if_neg (by rw [sum]; omega), third]
    split <;> rfl
  · rw [if_pos three, if_neg three]
    rfl

theorem disp32At_window :
    disp32At ram (addr + 1) = .ok (wordOf [byteFrom ram (addr.toNat + 1), byteFrom ram (addr.toNat + 2),
      byteFrom ram (addr.toNat + 3), byteFrom ram (addr.toNat + 4)]) := by
  have next (k : Nat) : addr + 1 + BitVec.ofNat 32 k = addr + BitVec.ofNat 32 (1 + k) := by
    rw [ofNat_add, ← add_assoc]
    rfl
  have second : addr + 1 + 1 = addr + BitVec.ofNat 32 2 := next 1
  have third : addr + 1 + 2 = addr + BitVec.ofNat 32 3 := next 2
  have fourth : addr + 1 + 3 = addr + BitVec.ofNat 32 4 := next 3
  unfold disp32At
  rw [second, third, fourth, show addr + 1 = addr + BitVec.ofNat 32 1 from rfl]
  have at_ {k : Nat} (near : k < 16) := byteAt_window ram sized inside near
  simp only [at_ (show 1 < 16 by omega), at_ (show 2 < 16 by omega), at_ (show 3 < 16 by omega),
    at_ (show 4 < 16 by omega), bind, bind]
  rfl

theorem vmDecode_window : vmDecode ram addr = .ok (decodeWindow fun k => byteFrom ram (addr.toNat + k)) := by
  have next := byteAt_window ram sized inside (k := 1) (by omega)
  have sum : (addr + BitVec.ofNat 32 1).toNat = addr.toNat + 1 := toNat_offset sized (by omega)
  have second : secondByte ram addr = .ok (byteFrom ram (addr.toNat + 1)) := by
    unfold secondByte
    change (addr + 1).toNat = _ at sum
    rw [if_pos (by omega)]
    exact next
  have escape : byteFrom ram (addr.toNat + 0) = 0x0F ↔ (byteFrom ram (addr.toNat + 0)).toNat = 0x0F :=
    toNat_inj.symm
  unfold vmDecode decodeWindow decodeOneByte
  rw [if_neg (by omega), byteAt_first ram sized inside, second]
  simp only [bind, Except.bind, escape, decodeMovCr_window ram sized inside, decodeAlu_window ram sized inside,
    decodeAluImm8_window ram sized inside, decodeMovR8Imm8, decodeMovR32Imm32, disp32At_window ram sized inside,
    show byteAt ram (addr + 1).toNat = _ from next, ite_true, Bool.false_eq_true, ite_false, apply_ite Except.ok]
  rfl

end

/-! ## Only the bytes of the instruction matter -/

theorem registerForm_some {modrm : Byte} {form : Reg → Reg → Option VmInstr} : registerForm modrm form = some instr ↔
      modrm.toNat >>> 6 = 3 ∧ form (regField modrm 3) (regField modrm 0) = some instr := by
  unfold registerForm
  split <;> simp_all

theorem decodePlain_prefix {opcode : Nat} {imm : Byte} (decoded : decodePlain opcode imm = some instr) :
    (0 < instr.size ∧ instr.size ≤ 2) ∧
      ∀ imm', (1 < instr.size → imm' = imm) → decodePlain opcode imm' = some instr := by
  have kinds : (instr.size = 1 ∧ ∀ imm', decodePlain opcode imm' = some instr) ∨ instr.size = 2 := by
    unfold decodePlain at decoded ⊢
    split at decoded
    all_goals first
      | (cases decoded; simp)
      | (split_ifs at decoded <;> cases decoded <;> simp [*])
  rcases kinds with ⟨one, any⟩ | two
  · exact ⟨by omega, fun imm' _ => any imm'⟩
  · refine ⟨by omega, fun imm' same => ?_⟩
    rw [same (by omega), decoded]

/-- What `f` decodes has more than `least` bytes and at most five, and no other bytes matter. -/
def Prefixed (least : Nat) (f : (Nat → Byte) → Option VmInstr) : Prop :=
  ∀ b instr, f b = some instr →
    least < instr.size ∧ instr.size ≤ 5 ∧ ∀ b', (∀ k < instr.size, b' k = b k) → f b' = some instr

namespace Prefixed
variable {least : Nat} {f g : (Nat → Byte) → Option VmInstr}

theorem none : Prefixed least fun _ => .none := nofun

theorem weaken {least' : Nat} (fewer : least ≤ least') (prefixed : Prefixed least' f) : Prefixed least f := by
  intro b instr decoded
  obtain ⟨long, rest⟩ := prefixed b instr decoded
  exact ⟨by omega, rest⟩

theorem ite {k : Nat} (near : k ≤ least) (c : Byte → Prop) [DecidablePred c] (left : Prefixed least f)
    (right : Prefixed least g) : Prefixed least fun b => if c (b k) then f b else g b := by
  intro b instr decoded
  by_cases holds : c (b k)
  · obtain ⟨long, short, determined⟩ := left b instr ((if_pos holds).symm.trans decoded)
    refine ⟨long, short, fun b' same => ?_⟩
    beta_reduce
    rw [same k (by omega), if_pos holds, determined b' same]
  · obtain ⟨long, short, determined⟩ := right b instr ((if_neg holds).symm.trans decoded)
    refine ⟨long, short, fun b' same => ?_⟩
    beta_reduce
    rw [same k (by omega), if_neg holds, determined b' same]

theorem register {form : (Nat → Byte) → Reg → Reg → Option VmInstr}
    (forms : ∀ reg rm, Prefixed least fun b => form b reg rm) :
    Prefixed least fun b => registerForm (b least) (form b) := by
  intro b instr decoded
  obtain ⟨three, formed⟩ := registerForm_some.mp decoded
  obtain ⟨long, short, determined⟩ := forms _ _ b instr formed
  refine ⟨long, short, fun b' same => ?_⟩
  beta_reduce
  rw [same least long]
  exact registerForm_some.mpr ⟨three, determined b' same⟩

theorem plain : Prefixed 0 fun b => decodePlain (b 0).toNat (b 1) := by
  intro b instr decoded
  obtain ⟨⟨positive, short⟩, determined⟩ := decodePlain_prefix decoded
  refine ⟨positive, by omega, fun b' same => ?_⟩
  beta_reduce
  rw [same 0 positive]
  exact determined _ (same 1)

theorem some {make : (Nat → Byte) → VmInstr} {size : Nat} (sizes : ∀ b, (make b).size = size) (long : least < size)
    (short : size ≤ 5) (determined : ∀ b b', (∀ k < size, b' k = b k) → make b' = make b) :
    Prefixed least fun b => .some (make b) := by
  intro b instr decoded
  cases decoded
  rw [sizes b]
  exact ⟨long, short, fun b' same => congrArg _ (determined b b' same)⟩

end Prefixed

theorem prefixed_constant (instr : VmInstr) {least : Nat} (long : least < instr.size) (short : instr.size ≤ 5) :
    Prefixed least fun _ => some instr :=
  .some (fun _ => rfl) long short fun _ _ _ => rfl

theorem prefixed_movCr (imm : Word) :
    Prefixed 1 fun b => registerForm (b 2) fun reg rm => some ⟨.movCr, some reg, some rm, imm, 3⟩ :=
  (Prefixed.register fun _ _ => prefixed_constant _ (Nat.lt_succ_self 2) (by simp)).weaken (by decide)

theorem prefixed_alu (make : Reg → Reg → VmInstr) (two : ∀ reg rm, (make reg rm).size = 2) :
    Prefixed 0 fun b => registerForm (b 1) fun reg rm => some (make reg rm) :=
  (Prefixed.register fun reg rm => prefixed_constant _ (by rw [two]; decide) (by rw [two]; decide)).weaken (by decide)

theorem prefixed_aluImm8 : Prefixed 0 fun b => registerForm (b 1) fun reg rm =>
    if reg = 0 ∨ reg = 5 then some ⟨if reg = 0 then .add else .sub, some rm, none, (b 2).signExtend 32, 3⟩
    else none := by
  refine (Prefixed.register fun reg rm => ?_).weaken (by decide)
  split
  · exact .some (fun _ => rfl) (by decide) (by decide) fun b b' same => by rw [same 2 (by decide)]
  · exact .none

theorem prefixed_decodeWindow : Prefixed 0 decodeWindow := by
  refine .ite le_rfl (fun x => x.toNat = 0x0F) ?_ ?_
  · exact (Prefixed.ite le_rfl (· = 0x20) (prefixed_movCr 0)
      (.ite le_rfl (· = 0x22) (prefixed_movCr 1) .none)).weaken (by decide)
  refine .ite le_rfl (fun x => x.toNat = 0x01) (prefixed_alu _ fun _ _ => rfl) ?_
  refine .ite le_rfl (fun x => x.toNat = 0x03) (prefixed_alu _ fun _ _ => rfl) ?_
  refine .ite le_rfl (fun x => x.toNat = 0x29) (prefixed_alu _ fun _ _ => rfl) ?_
  refine .ite le_rfl (fun x => x.toNat = 0x2B) (prefixed_alu _ fun _ _ => rfl) ?_
  refine .ite le_rfl (fun x => x.toNat = 0x83) prefixed_aluImm8 ?_
  refine .ite le_rfl (fun x => 0xB0 ≤ x.toNat ∧ x.toNat ≤ 0xB7) ?_ ?_
  · exact .some (fun _ => rfl) (by decide) (by decide) fun b b' same => by
      rw [same 0 (by decide), same 1 (by decide)]
  refine .ite le_rfl (fun x => 0xB8 ≤ x.toNat ∧ x.toNat ≤ 0xBF) ?_ .plain
  exact .some (fun _ => rfl) (by decide) (by decide) fun b b' same => by
    rw [same 0 (by decide), same 1 (by decide), same 2 (by decide), same 3 (by decide), same 4 (by decide)]

def Encodes (n : Nat) (bytes : List Byte) (instr : VmInstr) : Prop :=
  ∀ (ram : Ram n) (addr : Word), addr.toNat + 16 ≤ n → copyOut ram addr.toNat bytes.length = .ok bytes →
    vmDecode ram addr = .ok (some instr)

theorem vmDecode_encodes (sized : Sized n) (inside : addr.toNat + 16 ≤ n)
    (decoded : vmDecode ram addr = .ok (some instr))
    (copied : copyOut ram addr.toNat instr.size = .ok bytes) : Encodes n bytes instr := by
  have length := length_copyOut copied
  intro ram' addr' inside' copied'
  rw [vmDecode_window ram sized inside] at decoded
  obtain ⟨-, -, determined⟩ := prefixed_decodeWindow _ _ (Except.ok.inj decoded)
  rw [vmDecode_window ram' sized inside', determined _ fun k below => ?_]
  rw [byteFrom_of_byteAt ((copyOut_eq_ok copied').2 k (length ▸ below)),
    byteFrom_of_byteAt ((copyOut_eq_ok copied).2 k below)]

theorem byteFrom_congr {ram' : Ram n} (same : byteAt ram' index = byteAt ram index) :
    byteFrom ram' index = byteFrom ram index := by
  unfold byteAt at same
  unfold byteFrom
  split
  · next inside =>
      rw [dif_pos inside, dif_pos inside] at same
      exact Except.ok.inj same
  · rfl

theorem Prefixed.agree {f : (Nat → Byte) → Option VmInstr} (prefixed : Prefixed 0 f) {b b' : Nat → Byte}
    (same : ∀ k < 5, b' k = b k) : f b' = f b := by
  cases decoded : f b with
  | some instr =>
    obtain ⟨-, short, determined⟩ := prefixed b instr decoded
    exact determined b' fun k below => same k (by omega)
  | none =>
    rw [Option.eq_none_iff_forall_ne_some]
    intro instr decoded'
    obtain ⟨-, short, determined⟩ := prefixed b' instr decoded'
    rw [determined b fun k below => (same k (by omega)).symm] at decoded
    cases decoded

/-- An instruction is decoded from its own bytes. -/
theorem vmDecode_local (sized : Sized n) (ram ram' : Ram n) (addr : Word) (inside : addr.toNat + 16 ≤ n) :
    (∀ instr, vmDecode ram addr = .ok (some instr) → 1 ≤ instr.size ∧ instr.size ≤ 5 ∧
      ((∀ k < instr.size, byteAt ram' (addr.toNat + k) = byteAt ram (addr.toNat + k)) →
        vmDecode ram' addr = .ok (some instr))) ∧
    ((∀ k < 16, byteAt ram' (addr.toNat + k) = byteAt ram (addr.toNat + k)) →
      ∃ result, vmDecode ram addr = .ok result ∧ vmDecode ram' addr = .ok result) := by
  rw [vmDecode_window ram sized inside, vmDecode_window ram' sized inside]
  constructor
  · intro instr decoded
    obtain ⟨long, short, determined⟩ := prefixed_decodeWindow _ _ (Except.ok.inj decoded)
    refine ⟨long, short, fun same => ?_⟩
    rw [determined _ fun k below => byteFrom_congr (same k below)]
  · intro same
    refine ⟨_, rfl, ?_⟩
    rw [prefixed_decodeWindow.agree fun k below => byteFrom_congr (same k (by omega))]

theorem vmDecode_local_mov : vmDecode (fun i : Fin 16 => [0xB9, 0x78, 0x56, 0x34, 0x12].getD i.val 0xFF) 0 =
    .ok (some ⟨.mov, some 1, none, 0x12345678, 5⟩) := by
  have sized : Sized 16 := ⟨le_rfl, by decide⟩
  have decoded : vmDecode (fun i : Fin 16 => [0xB9, 0x78, 0x56, 0x34, 0x12].getD i.val 0x90) 0 =
      .ok (some ⟨.mov, some 1, none, 0x12345678, 5⟩) := rfl
  obtain ⟨-, -, determined⟩ := (vmDecode_local sized _ _ 0 (by decide)).1 _ decoded
  refine determined fun k (below : k < 5) => ?_
  obtain rfl | rfl | rfl | rfl | rfl : k = 0 ∨ k = 1 ∨ k = 2 ∨ k = 3 ∨ k = 4 := by omega
  all_goals rfl

end Flinstone.Vm
