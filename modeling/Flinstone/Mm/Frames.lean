import Flinstone.Lib.Bitmap

/-!
# Physical frames

`pmm.c`.
-/

namespace Flinstone.Mm
open Flinstone.Lib List

abbrev Address := BitVec 64

def pmmFrameSize : Address := 4096
def pmmPhysBase : Address := 0x100000
def pmmPhysMem : Address := 4 * 1024 * 1024
def pmmNumFrames : Address := pmmPhysMem / pmmFrameSize

abbrev FrameMap := Bitmap 16 64

def bmSet (s : FrameMap) (frame : Nat) : Option FrameMap :=
  if word : frame / 64 < 16 then
    some (Function.update s ⟨frame / 64, word⟩ (s ⟨frame / 64, word⟩ ||| 1#64 <<< (frame % 64)))
  else none

def bmClear (s : FrameMap) (frame : Nat) : Option FrameMap :=
  if word : frame / 64 < 16 then
    some (Function.update s ⟨frame / 64, word⟩ (s ⟨frame / 64, word⟩ &&& ~~~(1#64 <<< (frame % 64))))
  else none

def pmmReserveRange (s : FrameMap) (base bytes : Address) : Option FrameMap :=
  if bytes = 0 ∨ base + bytes ≤ pmmPhysBase then some s
  else
    let start := if base < pmmPhysBase then pmmPhysBase else base
    let regionEnd := pmmPhysBase + pmmPhysMem
    let stop := if base + bytes > regionEnd then regionEnd else base + bytes
    if start ≥ stop then some s
    else
      let firstFrame := (start - pmmPhysBase) / pmmFrameSize
      let lastFrame := (stop - 1 - pmmPhysBase) / pmmFrameSize
      let lastFrame := if lastFrame ≥ pmmNumFrames then pmmNumFrames - 1 else lastFrame
      (List.range' firstFrame.toNat (lastFrame.toNat + 1 - firstFrame.toNat)).foldlM bmSet s

def allocFrom (s : FrameMap) : List (Fin 16) → Option (Address × FrameMap)
  | [] => some (0, s)
  | w :: rest =>
    if s w = BitVec.allOnes 64 then allocFrom s rest
    else
      let frame := w * 64 + (~~~ s w).ctz.toNat
      if frame ≥ pmmNumFrames.toNat then
        if w = 15 then some (0, s) else allocFrom s rest
      else do
        let s ← bmSet s frame
        return (pmmPhysBase + BitVec.ofNat 64 frame * pmmFrameSize, s)

def pmmAllocFrame (s : FrameMap) : Option (Address × FrameMap) := allocFrom s (List.finRange 16)

def pmmFreeFrame (s : FrameMap) (physAddr : Address) : Option FrameMap :=
  if physAddr < pmmPhysBase then some s
  else
    let frame := (physAddr - pmmPhysBase) / pmmFrameSize
    if frame ≥ pmmNumFrames then some s else bmClear s frame.toNat

def pmmFreeCount (s : FrameMap) : Nat :=
  (List.finRange 16).foldl (fun free w =>
    let rem := pmmNumFrames.toNat % 64
    let bits := if w = 15 ∧ rem ≠ 0 then ~~~ s w &&& (1#64 <<< rem - 1) else ~~~ s w
    free + bits.cpop.toNat) 0

/-! ## What the calls do to the frames -/

def frameOf (physAddr : Address) : Nat := (physAddr.toNat - 0x100000) / 4096

def Tracked (physAddr : Address) : Prop := 0x100000 ≤ physAddr.toNat ∧ physAddr.toNat < 0x500000

instance (physAddr : Address) : Decidable (Tracked physAddr) := inferInstanceAs (Decidable (_ ∧ _))

def Covers (base bytes : Address) (frame : Nat) : Prop :=
  0 < bytes.toNat ∧ base.toNat + bytes.toNat < 2 ^ 64 ∧
    base.toNat < 0x100000 + (frame + 1) * 4096 ∧ 0x100000 + frame * 4096 < base.toNat + bytes.toNat

instance (base bytes : Address) (frame : Nat) : Decidable (Covers base bytes frame) :=
  inferInstanceAs (Decidable (_ ∧ _ ∧ _ ∧ _))

variable (s : FrameMap)
variable {frame : Nat} {physAddr : Address}

theorem bmSet_spec (low : frame < 1024) :
    ∃ s', bmSet s frame = some s' ∧ ∀ i < 1024, s'.test i = (decide (i = frame) || s.test i) := by
  have word : frame / 64 < 16 := by omega
  have here : frame / 64 * 64 + frame % 64 = frame := by omega
  refine ⟨_, dif_pos word, fun i inside => ?_⟩
  rw [Bitmap.test_update s word (Nat.mod_lt frame (by decide)) true (fun k bit => ?_) inside, here]
  · by_cases mine : i = frame <;> simp
  · change (s _ ||| BitVec.twoPow 64 (frame % 64)).getLsbD k = _
    by_cases mine : k = frame % 64
    · simp [mine, Nat.mod_lt]
    · simp [mine, Ne.symm mine]

theorem bmClear_spec (low : frame < 1024) :
    ∃ s', bmClear s frame = some s' ∧ ∀ i < 1024, s'.test i = (!decide (i = frame) && s.test i) := by
  have word : frame / 64 < 16 := by omega
  have here : frame / 64 * 64 + frame % 64 = frame := by omega
  refine ⟨_, dif_pos word, fun i inside => ?_⟩
  rw [Bitmap.test_update s word (Nat.mod_lt frame (by decide)) false (fun k bit => ?_) inside, here]
  · by_cases mine : i = frame <;> simp
  · change (s _ &&& ~~~ BitVec.twoPow 64 (frame % 64)).getLsbD k = _
    by_cases mine : k = frame % 64
    · simp [mine, Nat.mod_lt]
    · simp [mine, bit]

theorem markAll_spec {frames : List Nat} (low : ∀ f ∈ frames, f < 1024) :
    ∃ s', frames.foldlM bmSet s = some s' ∧ ∀ i < 1024, s'.test i = (decide (i ∈ frames) || s.test i) := by
  induction frames generalizing s with
  | nil => exact ⟨s, rfl, fun i _ => by simp⟩
  | cons f rest ih =>
    obtain ⟨first, set, marked⟩ := bmSet_spec s (low f mem_cons_self)
    obtain ⟨last, done, all⟩ := ih first fun g member => low g (mem_cons_of_mem f member)
    refine ⟨last, ?_, fun i inside => ?_⟩
    · rw [foldlM_cons, set]
      exact done
    · rw [all i inside, marked i inside]
      by_cases mine : i = f <;> simp [mine]

theorem frame_toNat (high : 0x100000 ≤ physAddr.toNat) :
    ((physAddr - pmmPhysBase) / pmmFrameSize).toNat = frameOf physAddr := by
  rw [BitVec.toNat_udiv, BitVec.toNat_sub_of_le (by rw [BitVec.le_def]; exact high)]
  rfl

theorem markRange_spec {start stop : Address} (high : 0x100000 ≤ start.toNat) (some : start.toNat < stop.toNat)
    (low : stop.toNat ≤ 0x500000) :
    ∃ s', (let firstFrame := (start - pmmPhysBase) / pmmFrameSize
      let lastFrame := (stop - 1 - pmmPhysBase) / pmmFrameSize
      let lastFrame := if lastFrame ≥ pmmNumFrames then pmmNumFrames - 1 else lastFrame
      (range' firstFrame.toNat (lastFrame.toNat + 1 - firstFrame.toNat)).foldlM bmSet s) = .some s' ∧
      ∀ i < 1024, s'.test i = (decide (start.toNat < 0x100000 + (i + 1) * 4096 ∧
        0x100000 + i * 4096 < stop.toNat) || s.test i) := by
  have before : (stop - 1).toNat = stop.toNat - 1 := by
    rw [BitVec.toNat_sub_of_le (by rw [BitVec.le_def]; change 1 ≤ _; omega)]
    rfl
  have first := frame_toNat high
  have last := frame_toNat (show 0x100000 ≤ (stop - 1).toNat by omega)
  rw [frameOf, before] at last
  have count : ¬ (stop - 1 - pmmPhysBase) / pmmFrameSize ≥ pmmNumFrames := by
    rw [ge_iff_le, BitVec.le_def, last]
    change ¬ 1024 ≤ _
    omega
  simp only [if_neg count, first, last, frameOf]
  have inside : ∀ f ∈ range' ((start.toNat - 0x100000) / 4096)
      ((stop.toNat - 1 - 0x100000) / 4096 + 1 - (start.toNat - 0x100000) / 4096), f < 1024 := by
    intro f member
    rw [mem_range'_1] at member
    omega
  obtain ⟨s', done, marked⟩ := markAll_spec s inside
  refine ⟨s', done, fun i low => ?_⟩
  rw [marked i low]
  congr 1
  rw [decide_eq_decide, mem_range'_1]
  omega

theorem pmmReserveRange_spec (base bytes : Address) :
    ∃ s', pmmReserveRange s base bytes = some s' ∧
      ∀ i < 1024, s'.test i = (decide (Covers base bytes i) || s.test i) := by
  have nothing (none : ∀ i < 1024, ¬ Covers base bytes i) :
      ∃ s', some s = some s' ∧ ∀ i < 1024, s'.test i = (decide (Covers base bytes i) || s.test i) :=
    ⟨s, rfl, fun i inside => by simp [none i inside]⟩
  have sum : (base + bytes).toNat = (base.toNat + bytes.toNat) % 2 ^ 64 := BitVec.toNat_add ..
  unfold pmmReserveRange
  split
  · next early =>
      refine nothing fun i inside covers => ?_
      obtain ⟨positive, plain, -, reaches⟩ := covers
      rcases early with rfl | early
      · exact absurd positive (by decide)
      · rw [BitVec.le_def, sum, Nat.mod_eq_of_lt plain] at early
        change _ ≤ 0x100000 at early
        omega
  · next late =>
      rw [not_or, BitVec.le_def, sum] at late
      have positive : 0 < bytes.toNat := by
        rw [Nat.pos_iff_ne_zero]
        exact fun none => late.1 (BitVec.eq_of_toNat_eq none)
      have start : (if base < pmmPhysBase then pmmPhysBase else base).toNat = max 0x100000 base.toNat := by
        split
        · next below =>
            change _ < 0x100000 at below
            rw [max_eq_left below.le]
            rfl
        · next above =>
            rw [BitVec.lt_def, not_lt] at above
            exact (max_eq_right above).symm
      have stop : (if base + bytes > pmmPhysBase + pmmPhysMem then pmmPhysBase + pmmPhysMem else base + bytes).toNat =
          min 0x500000 ((base.toNat + bytes.toNat) % 2 ^ 64) := by
        split
        · next above =>
            exact (min_eq_left above.le).symm
        · next below =>
            rw [gt_iff_lt, BitVec.lt_def, not_lt] at below
            exact (min_eq_right below).symm
      dsimp only
      generalize (if base < pmmPhysBase then pmmPhysBase else base) = first at start ⊢
      generalize (if base + bytes > pmmPhysBase + pmmPhysMem then pmmPhysBase + pmmPhysMem else base + bytes) = last
        at stop ⊢
      split
      · next empty =>
          rw [ge_iff_le, BitVec.le_def, start, stop] at empty
          refine nothing fun i inside covers => ?_
          obtain ⟨-, plain, begins, reaches⟩ := covers
          omega
      · next some =>
          rw [ge_iff_le, BitVec.le_def, not_le] at some
          have high : 0x100000 ≤ first.toNat := by omega
          have low : last.toNat ≤ 0x500000 := by omega
          obtain ⟨s', done, marked⟩ := markRange_spec s high some low
          refine ⟨s', done, fun i inside => ?_⟩
          rw [marked i inside, start, stop]
          congr 1
          rw [decide_eq_decide, Covers]
          omega

def frameAddress (frame : Nat) : Address := pmmPhysBase + BitVec.ofNat 64 frame * pmmFrameSize

theorem frameAddress_toNat (low : frame < 1024) :
    (frameAddress frame).toNat = 0x100000 + frame * 4096 := by
  have base : pmmPhysBase.toNat = 0x100000 := rfl
  have size : pmmFrameSize.toNat = 4096 := rfl
  rw [frameAddress, BitVec.toNat_add, BitVec.toNat_mul, BitVec.toNat_ofNat, base, size]
  omega

theorem frameOf_frameAddress (low : frame < 1024) : frameOf (frameAddress frame) = frame := by
  rw [frameOf, frameAddress_toNat low]
  omega

theorem frameAddress_ne_zero (low : frame < 1024) : frameAddress frame ≠ 0 := by
  intro zero
  have address := frameAddress_toNat low
  rw [zero] at address
  change 0 = _ at address
  omega

structure LowestClear (frame : Nat) : Prop where
  low : frame < 1024
  clear : s.test frame = false
  below : ∀ i < frame, s.test i = true

theorem LowestClear.unique {s : FrameMap} {frame frame' : Nat} (lowest : LowestClear s frame)
    (lowest' : LowestClear s frame') : frame = frame' := by
  rcases lt_trichotomy frame frame' with lower | same | lower
  · have marked := lowest'.below frame lower
    rw [lowest.clear] at marked
    cases marked
  · exact same
  · have marked := lowest.below frame' lower
    rw [lowest'.clear] at marked
    cases marked

theorem allocFrom_spec {ws : List (Fin 16)} (sorted : ws.Pairwise (· < ·))
    (full : ∀ w ∉ ws, s w = BitVec.allOnes 64) :
    (∃ frame s', LowestClear s frame ∧ allocFrom s ws = some (frameAddress frame, s') ∧
      ∀ i < 1024, s'.test i = (decide (i = frame) || s.test i)) ∨
    (∀ i < 1024, s.test i = true) ∧ allocFrom s ws = some (0, s) := by
  induction ws with
  | nil =>
    refine .inr ⟨fun i low => ?_, rfl⟩
    obtain ⟨w, r, bit, rfl⟩ := Bitmap.exists_place (m := 16) (w := 64) low
    rw [s.test_place w bit, full w not_mem_nil, BitVec.getLsbD_allOnes]
    exact decide_eq_true bit
  | cons w rest ih =>
    obtain ⟨later, sorted⟩ := pairwise_cons.mp sorted
    unfold allocFrom
    split
    · next here =>
        refine ih sorted fun p absent => ?_
        by_cases same : p = w
        · rw [same, here]
        · exact full p (by simp [same, absent])
    · next room =>
        left
        have earlier (p : Fin 16) (before : p < w) : s p = BitVec.allOnes 64 := by
          refine full p fun member => ?_
          rcases mem_cons.mp member with rfl | member
          · exact before.false
          · exact (before.trans (later p member)).false
        obtain ⟨bit, clear, below⟩ := s.test_lowest w room earlier
        have low : w * 64 + (~~~ s w).ctz.toNat < 1024 := by omega
        obtain ⟨s', set, marked⟩ := bmSet_spec s low
        refine ⟨_, s', ⟨low, clear, below⟩, ?_, marked⟩
        have count : ¬ w * 64 + (~~~ s w).ctz.toNat ≥ pmmNumFrames.toNat := not_le.mpr low
        simp only [if_neg count, set]
        rfl

theorem pmmAllocFrame_spec :
    (∃ frame s', LowestClear s frame ∧ pmmAllocFrame s = some (frameAddress frame, s') ∧
      ∀ i < 1024, s'.test i = (decide (i = frame) || s.test i)) ∨
    (∀ i < 1024, s.test i = true) ∧ pmmAllocFrame s = some (0, s) :=
  allocFrom_spec s (pairwise_lt_finRange 16) fun w absent => absurd (mem_finRange w) absent

theorem pmmFreeFrame_ignored (outside : ¬ Tracked physAddr) :
    pmmFreeFrame s physAddr = some s := by
  unfold pmmFreeFrame
  split
  · rfl
  · next above =>
      rw [BitVec.lt_def, not_lt] at above
      change 0x100000 ≤ _ at above
      have high : (physAddr - pmmPhysBase) / pmmFrameSize ≥ pmmNumFrames := by
        rw [ge_iff_le, BitVec.le_def, frame_toNat above, frameOf]
        change 1024 ≤ _
        rw [Tracked] at outside
        omega
      rw [if_pos high]

theorem pmmFreeFrame_tracked {physAddr : Address} (tracked : Tracked physAddr) :
    ∃ s', pmmFreeFrame s physAddr = some s' ∧
      ∀ i < 1024, s'.test i = (!decide (i = frameOf physAddr) && s.test i) := by
  obtain ⟨above, below⟩ := tracked
  have frame := frame_toNat above
  have low : frameOf physAddr < 1024 := by
    rw [frameOf]
    omega
  have inside : ¬ (physAddr - pmmPhysBase) / pmmFrameSize ≥ pmmNumFrames := by
    rw [ge_iff_le, BitVec.le_def, frame]
    exact not_le.mpr low
  have start : ¬ physAddr < pmmPhysBase := by
    rw [BitVec.lt_def, not_lt]
    exact above
  simp only [pmmFreeFrame, if_neg start, if_neg inside, frame]
  exact bmClear_spec s low

theorem pmmFreeCount_spec : pmmFreeCount s = s.clear.card := by
  have plain : ∀ w : Fin 16, ¬ (w = 15 ∧ pmmNumFrames.toNat % 64 ≠ 0) := by decide
  simp only [pmmFreeCount, if_neg (plain _)]
  rw [Bitmap.card_clear, Fin.sum_univ_def, sum_eq_foldl, foldl_map]

/-! ## Which frames a reservation marks -/

def InRange (base bytes : Address) (frame : Nat) : Prop :=
  ∃ a : Address, Tracked a ∧ frameOf a = frame ∧ base ≤ a ∧ a - base < bytes

def Reserves (base bytes : Address) : Prop :=
  ∃ s', pmmReserveRange s base bytes = some s' ∧
    ∀ frame < 1024, s'.test frame = true ↔ InRange base bytes frame ∨ s.test frame = true

theorem inRange_iff {base bytes : Address} (low : frame < 1024) :
    InRange base bytes frame ↔ 0 < bytes.toNat ∧ base.toNat < 0x100000 + (frame + 1) * 4096 ∧
      0x100000 + frame * 4096 < base.toNat + bytes.toNat := by
  have from_base {a : Address} (above : base.toNat ≤ a.toNat) : (a - base).toNat = a.toNat - base.toNat :=
    BitVec.toNat_sub_of_le (BitVec.le_def.mpr above)
  constructor
  · rintro ⟨a, ⟨above, below⟩, rfl, after, within⟩
    rw [BitVec.le_def] at after
    rw [BitVec.lt_def, from_base after] at within
    rw [frameOf] at low ⊢
    omega
  · rintro ⟨some, begins, reaches⟩
    -- the first address that is in both
    have place : (BitVec.ofNat 64 (max base.toNat (0x100000 + frame * 4096))).toNat =
        max base.toNat (0x100000 + frame * 4096) := by
      rw [BitVec.toNat_ofNat]
      omega
    refine ⟨BitVec.ofNat 64 (max base.toNat (0x100000 + frame * 4096)), ?_, ?_, ?_, ?_⟩
    · rw [Tracked, place]
      omega
    · rw [frameOf, place]
      omega
    · rw [BitVec.le_def, place]
      exact le_max_left ..
    · rw [BitVec.lt_def, from_base (by rw [place]; exact le_max_left ..), place]
      omega

/-- A range that goes on to the end of the address space is taken for an empty one. -/
theorem reserve_covers_iff (s : FrameMap) (base bytes : Address) : Reserves s base bytes ↔
    base.toNat + bytes.toNat < 2 ^ 64 ∨
      ∀ frame < 1024, base.toNat < 0x100000 + (frame + 1) * 4096 → s.test frame = true := by
  obtain ⟨s', done, marked⟩ := pmmReserveRange_spec s base bytes
  have same : Reserves s base bytes ↔
      ∀ frame < 1024, Covers base bytes frame ∨ s.test frame = true ↔
        InRange base bytes frame ∨ s.test frame = true := by
    constructor
    · rintro ⟨other, given, covers⟩ frame low
      obtain rfl := Option.some.inj (done.symm.trans given)
      rw [← covers frame low, marked frame low, Bool.or_eq_true, decide_eq_true_eq]
    · intro covers
      refine ⟨s', done, fun frame low => ?_⟩
      rw [← covers frame low, marked frame low, Bool.or_eq_true, decide_eq_true_eq]
  rw [same]
  by_cases plain : base.toNat + bytes.toNat < 2 ^ 64
  · refine iff_of_true (fun frame low => ?_) (.inl plain)
    rw [inRange_iff low, Covers, and_iff_right plain]
  · rw [or_iff_right plain]
    refine forall₂_congr fun frame low => ?_
    have none : ¬ Covers base bytes frame := fun covers => plain covers.2.1
    have meets : InRange base bytes frame ↔ base.toNat < 0x100000 + (frame + 1) * 4096 := by
      rw [inRange_iff low]
      omega
    rw [or_iff_right none, meets]
    exact comm.trans or_iff_right_iff_imp

theorem reserve_wraps : ¬ Reserves (fun _ => 0) 0x200000 (BitVec.allOnes 64) := by
  rintro ⟨s', done, covers⟩
  obtain ⟨other, given, marked⟩ := pmmReserveRange_spec (fun _ => 0) 0x200000 (BitVec.allOnes 64)
  obtain rfl := Option.some.inj (done.symm.trans given)
  have reached : InRange 0x200000 (BitVec.allOnes 64) 256 := (inRange_iff (by decide)).mpr (by decide)
  have set := (covers 256 (by decide)).mpr (.inl reached)
  rw [marked 256 (by decide)] at set
  exact absurd set (by decide)

inductive FrameCall where
  | reserve (base bytes : Address)
  | alloc
  | free (physAddr : Address)

def FrameCall.run (s : FrameMap) : FrameCall → Option (Address × FrameMap)
  | reserve base bytes => (pmmReserveRange s base bytes).map fun s => (0, s)
  | alloc => pmmAllocFrame s
  | free physAddr => (pmmFreeFrame s physAddr).map fun s => (0, s)

def runFrames (s : FrameMap) (log : List (FrameCall × Address)) :
    List FrameCall → Option (List (FrameCall × Address) × FrameMap)
  | [] => some (log, s)
  | call :: rest => do
      let (reply, s) ← call.run s
      runFrames s ((call, reply) :: log) rest

def Held : List (FrameCall × Address) → Nat → Prop
  | [], _ => False
  | (.reserve base bytes, _) :: earlier, frame => Covers base bytes frame ∨ Held earlier frame
  | (.alloc, reply) :: earlier, frame => reply ≠ 0 ∧ frame = frameOf reply ∨ Held earlier frame
  | (.free physAddr, _) :: earlier, frame => ¬ (Tracked physAddr ∧ frame = frameOf physAddr) ∧ Held earlier frame

def allocUntilFailure : Nat → FrameMap → Option (List Address × FrameMap)
  | 0, _ => none
  | fuel + 1, s => do
      let (reply, s) ← pmmAllocFrame s
      if reply = 0 then return ([], s)
      let (replies, s) ← allocUntilFailure fuel s
      return (reply :: replies, s)

def Shown (log : List (FrameCall × Address)) (s : FrameMap) : Prop :=
  ∀ frame < 1024, s.test frame = true ↔ Held log frame

theorem Shown.step {s : FrameMap} {log : List (FrameCall × Address)} (shown : Shown log s) (call : FrameCall) :
    ∃ reply s', call.run s = some (reply, s') ∧ Shown ((call, reply) :: log) s' := by
  cases call with
  | reserve base bytes =>
    obtain ⟨s', done, marked⟩ := pmmReserveRange_spec s base bytes
    refine ⟨0, s', by rw [FrameCall.run, done]; rfl, fun frame low => ?_⟩
    rw [marked frame low, Held, ← shown frame low]
    simp
  | alloc =>
    rcases pmmAllocFrame_spec s with ⟨frame, s', lowest, done, marked⟩ | ⟨full, done⟩
    · refine ⟨_, s', done, fun i low => ?_⟩
      rw [marked i low, Held, frameOf_frameAddress lowest.low, ← shown i low, Bool.or_eq_true,
        decide_eq_true_eq, and_iff_right (frameAddress_ne_zero lowest.low)]
    · refine ⟨_, s, done, fun i low => ?_⟩
      rw [Held, ← shown i low]
      simp
  | free physAddr =>
    by_cases tracked : Tracked physAddr
    · obtain ⟨s', done, marked⟩ := pmmFreeFrame_tracked s tracked
      refine ⟨0, s', by rw [FrameCall.run, done]; rfl, fun frame low => ?_⟩
      rw [marked frame low, Held, ← shown frame low]
      simp [tracked]
    · refine ⟨0, s, by rw [FrameCall.run, pmmFreeFrame_ignored s tracked]; rfl, fun frame low => ?_⟩
      rw [Held, ← shown frame low]
      simp [tracked]

theorem Shown.run {s : FrameMap} {log : List (FrameCall × Address)} (shown : Shown log s)
    (calls : List FrameCall) : ∃ log' s', runFrames s log calls = some (log', s') ∧ Shown log' s' := by
  induction calls generalizing s log with
  | nil => exact ⟨log, s, rfl, shown⟩
  | cons call rest ih =>
    obtain ⟨reply, s', done, next⟩ := shown.step call
    obtain ⟨log'', s'', ran, last⟩ := ih next
    refine ⟨log'', s'', ?_, last⟩
    rw [runFrames, done]
    exact ran

theorem card_clear_marked {s s' : FrameMap} {frame : Nat} (lowest : LowestClear s frame)
    (marked : ∀ i < 1024, s'.test i = (decide (i = frame) || s.test i)) :
    s'.clear.card + 1 = s.clear.card := by
  have member : (⟨frame, lowest.low⟩ : Fin (16 * 64)) ∈ s.clear := Bitmap.mem_clear.mpr lowest.clear
  have erased : s'.clear = s.clear.erase ⟨frame, lowest.low⟩ := by
    ext i
    rw [Bitmap.mem_clear, Finset.mem_erase, Bitmap.mem_clear, marked i i.isLt, Bool.or_eq_false_iff,
      decide_eq_false_iff_not, ne_eq, Fin.ext_iff]
  rw [erased, Finset.card_erase_add_one member]

theorem allocUntilFailure_spec {fuel : Nat} (enough : s.clear.card < fuel) :
    ∃ replies s', allocUntilFailure fuel s = some (replies, s') ∧ replies.length = s.clear.card ∧
      replies.Nodup ∧ ∀ reply ∈ replies, ∃ frame < 1024, reply = frameAddress frame ∧ s.test frame = false := by
  induction fuel generalizing s with
  | zero => omega
  | succ fuel ih =>
    unfold allocUntilFailure
    rcases pmmAllocFrame_spec s with ⟨frame, next, lowest, done, marked⟩ | ⟨full, done⟩
    · have fewer := card_clear_marked lowest marked
      obtain ⟨replies, s', ran, length, nodup, fresh⟩ := ih next (by omega)
      refine ⟨frameAddress frame :: replies, s', ?_, ?_, ?_, ?_⟩
      · simp only [done, Option.bind_eq_bind, Option.bind_some, if_neg (frameAddress_ne_zero lowest.low), ran]
        rfl
      · rw [length_cons, length, fewer]
      · refine nodup_cons.mpr ⟨fun again => ?_, nodup⟩
        obtain ⟨other, low, same, clear⟩ := fresh _ again
        have equal := congrArg frameOf same
        rw [frameOf_frameAddress lowest.low, frameOf_frameAddress low] at equal
        rw [marked other low, equal] at clear
        simp at clear
      · rintro reply (_ | ⟨_, member⟩)
        · exact ⟨frame, lowest.low, rfl, lowest.clear⟩
        · obtain ⟨other, low, same, clear⟩ := fresh reply member
          rw [marked other low, Bool.or_eq_false_iff] at clear
          exact ⟨other, low, same, clear.2⟩
    · have none : s.clear = ∅ := by
        refine Finset.eq_empty_of_forall_notMem fun i member => ?_
        rw [Bitmap.mem_clear, full i i.isLt] at member
        cases member
      refine ⟨[], s, ?_, ?_, nodup_nil, nofun⟩
      · simp [done]
      · rw [none]
        rfl

structure FrameLaws (held : Nat → Prop) (s : FrameMap) : Prop where
  alloc : ∀ frame, LowestClear s frame → ¬ held frame ∧ ∃ reply s', pmmAllocFrame s = some (reply, s') ∧
    reply.toNat = 0x100000 + frame * 4096 ∧ ∀ i < 1024, s'.test i = (decide (i = frame) || s.test i)
  full : ∀ s', pmmAllocFrame s = some (0, s') ↔ s' = s ∧ ∀ i < 1024, s.test i = true
  reserve : ∀ base bytes, ∃ s', pmmReserveRange s base bytes = some s' ∧
    ∀ i < 1024, s'.test i = (decide (Covers base bytes i) || s.test i)
  free : ∀ physAddr, Tracked physAddr → ∃ s', pmmFreeFrame s physAddr = some s' ∧
    ∀ i < 1024, s'.test i = (!decide (i = frameOf physAddr) && s.test i)
  ignored : ∀ physAddr, ¬ Tracked physAddr → pmmFreeFrame s physAddr = some s
  count : pmmFreeCount s = (Finset.univ.filter fun i : Fin 1024 => s.test i = false).card
  exhaust : ∀ fuel > pmmFreeCount s, ∃ replies s', allocUntilFailure fuel s = some (replies, s') ∧
    replies.length = pmmFreeCount s ∧ replies.Nodup

theorem Shown.laws {s : FrameMap} {log : List (FrameCall × Address)} (shown : Shown log s) :
    FrameLaws (Held log) s where
  alloc frame lowest := by
    refine ⟨fun held => ?_, ?_⟩
    · rw [← shown frame lowest.low, lowest.clear] at held
      cases held
    · rcases pmmAllocFrame_spec s with ⟨other, s', lowest', done, marked⟩ | ⟨full, -⟩
      · obtain rfl : other = frame := lowest'.unique lowest
        exact ⟨_, s', done, frameAddress_toNat lowest.low, marked⟩
      · have marked := full frame lowest.low
        rw [lowest.clear] at marked
        cases marked
  full s' := by
    rcases pmmAllocFrame_spec s with ⟨frame, next, lowest, done, -⟩ | ⟨full, done⟩
    · refine iff_of_false (fun none => ?_) fun none => ?_
      · rw [done] at none
        exact frameAddress_ne_zero lowest.low (congrArg Prod.fst (Option.some.inj none))
      · have marked := none.2 frame lowest.low
        rw [lowest.clear] at marked
        cases marked
    · rw [done]
      constructor
      · rintro ⟨⟩
        exact ⟨rfl, full⟩
      · rintro ⟨rfl, -⟩
        rfl
  reserve := pmmReserveRange_spec s
  free physAddr := pmmFreeFrame_tracked s
  ignored physAddr := pmmFreeFrame_ignored s
  count := pmmFreeCount_spec s
  exhaust fuel enough := by
    rw [gt_iff_lt, pmmFreeCount_spec] at enough
    obtain ⟨replies, s', done, length, nodup, -⟩ := allocUntilFailure_spec s enough
    exact ⟨replies, s', done, by rw [length, pmmFreeCount_spec], nodup⟩

theorem frames_tracked (calls : List FrameCall) :
    ∃ log s, runFrames (fun _ => 0) [] calls = some (log, s) ∧ FrameLaws (Held log) s := by
  have fresh : Shown [] (fun _ => 0) := by
    intro frame low
    obtain ⟨w, r, bit, rfl⟩ := Bitmap.exists_place (m := 16) (w := 64) low
    rw [Bitmap.test_place _ w bit]
    simp [Held]
  obtain ⟨log, s, ran, shown⟩ := fresh.run calls
  exact ⟨log, s, ran, shown.laws⟩

end Flinstone.Mm
