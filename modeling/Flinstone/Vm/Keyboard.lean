import Flinstone.Lib.Ring
import Flinstone.Vm.Reset

/-! # The keyboard queue -/

namespace Flinstone.Vm
open Flinstone.Lib Flinstone.Sys

variable {n : Nat} {W : Type}

inductive KbdCall where
  | push (scancode : Byte)
  | pop
  | save
  | restore

inductive KbdReply where
  | status (ok : Bool)
  | scancode (sc : Option Byte)
  deriving DecidableEq

def kbdCall (env : Env W) (m : Machine n W) : KbdCall → KbdReply × Machine n W
  | .push scancode =>
    let (ok, host) := vmHostKbdPush m.vm.host scancode
    (.status ok, { m with vm := { m.vm with host } })
  | .pop =>
    let (sc, host) := vmHostKbdPop m.vm.host
    (.scancode sc, { m with vm := { m.vm with host } })
  | .save =>
    let (ok, m) := vmSnapshotSave env m
    (.status ok, m)
  | .restore =>
    let (ok, m) := vmSnapshotRestore env m
    (.status ok, m)

def kbdRun (env : Env W) : List KbdCall → Machine n W → List KbdReply × Machine n W
  | [], m => ([], m)
  | call :: rest, m =>
    let (reply, m) := kbdCall env m call
    let (replies, m) := kbdRun env rest m
    (reply :: replies, m)

structure KbdFifo where
  queue : List Byte
  saved : Option (List Byte)

def kbdRoom : Nat := 31

inductive KbdFifo.Step : KbdFifo → KbdCall → KbdReply → KbdFifo → Prop where
  | pushed {s : KbdFifo} {scancode : Byte} (room : s.queue.length < kbdRoom) :
      Step s (.push scancode) (.status true) { s with queue := s.queue ++ [scancode] }
  | full {s : KbdFifo} {scancode : Byte} (full : s.queue.length = kbdRoom) : Step s (.push scancode) (.status false) s
  | popped {sc : Byte} {rest : List Byte} {saved : Option (List Byte)} :
      Step ⟨sc :: rest, saved⟩ .pop (.scancode (some sc)) ⟨rest, saved⟩
  | empty {saved : Option (List Byte)} : Step ⟨[], saved⟩ .pop (.scancode none) ⟨[], saved⟩
  | saved {s : KbdFifo} : Step s .save (.status true) ⟨s.queue, some s.queue⟩
  | unsaved {s : KbdFifo} : Step s .save (.status false) s
  | restored {queue earlier : List Byte} : Step ⟨queue, some earlier⟩ .restore (.status true) ⟨earlier, some earlier⟩
  | unrestored {queue : List Byte} : Step ⟨queue, none⟩ .restore (.status false) ⟨queue, none⟩

inductive KbdFifo.Runs : KbdFifo → List KbdCall → List KbdReply → KbdFifo → Prop where
  | nil {s : KbdFifo} : Runs s [] [] s
  | cons {s s' s'' : KbdFifo} {call : KbdCall} {reply : KbdReply} {calls : List KbdCall} {replies : List KbdReply}
      (step : Step s call reply s') (rest : Runs s' calls replies s'') : Runs s (call :: calls) (reply :: replies) s''

def kbdRing (head tail : Fin 32) : Ring 32 where
  head := head
  tail := tail
  len := (tail - head).val
  bounded := (tail - head).isLt.le
  balanced := by rw [Fin.val_sub]; omega

def kbdContent (buf : Fin 32 → Byte) (head tail : Fin 32) : List Byte := (kbdRing head tail).window buf

variable (buf : Fin 32 → Byte)

theorem length_kbdContent (head tail : Fin 32) :
    (kbdContent buf head tail).length = (tail - head).val := Ring.length_window ..

theorem kbd_full_iff (head tail : Fin 32) :
    tail + 1 = head ↔ (kbdContent buf head tail).length = kbdRoom := by
  rw [length_kbdContent, Fin.val_sub, Fin.ext_iff, Fin.val_add, kbdRoom]
  omega

variable {head tail : Fin 32} {host : VmHost n}

theorem kbd_room (room : tail + 1 ≠ head) : (kbdContent buf head tail).length < kbdRoom := by
  have short := mt (kbd_full_iff buf head tail).mpr room
  rw [length_kbdContent] at short ⊢
  unfold kbdRoom at short ⊢
  omega

theorem kbd_empty_iff (head tail : Fin 32) : head = tail ↔ kbdContent buf head tail = [] := by
  rw [← List.length_eq_zero_iff, length_kbdContent, Fin.val_sub, Fin.ext_iff]
  omega

theorem kbdRing_eq {r : Ring 32} (room : r.len < 32) : kbdRing r.head r.tail = r := by
  obtain ⟨head, tail, len, bounded, balanced⟩ := r
  have length : (tail - head).val = len := by
    simp only at room balanced
    omega
  simp only [kbdRing, length]

theorem kbdContent_push (scancode : Byte) (room : tail + 1 ≠ head) :
    kbdContent (Function.update buf tail scancode) head (tail + 1) = kbdContent buf head tail ++ [scancode] := by
  have short : (kbdRing head tail).len < kbdRoom := (length_kbdContent buf head tail).symm.trans_lt (kbd_room buf room)
  have free : (kbdRing head tail).len < 32 := short.trans (by decide)
  have ring := kbdRing_eq (show ((kbdRing head tail).push free).len < 32 from Nat.succ_lt_succ short)
  unfold kbdContent
  rw [← Ring.window_push _ free, ← ring]
  rfl

theorem kbdContent_pop (occupied : head ≠ tail) :
    kbdContent buf head tail = buf head :: kbdContent buf (head + 1) tail := by
  have filled : 0 < (kbdRing head tail).len := by
    rw [← Ring.length_window (kbdRing head tail) buf, List.length_pos_iff]
    exact fun empty => occupied ((kbd_empty_iff buf head tail).mpr empty)
  have shorter : ((kbdRing head tail).pop filled).len < 32 := by
    change (tail - head).val - 1 < 32
    omega
  have ring := kbdRing_eq shorter
  unfold kbdContent
  rw [Ring.window_pop _ filled, ← ring]
  rfl

def VmHost.kbdContent (host : VmHost n) : List Byte := Vm.kbdContent host.kbdQueue host.kbdHead host.kbdTail

def VmSnapshot.kbdContent (snapshot : VmSnapshot n) : Option (List Byte) :=
  if snapshot.hasCheckpoint ∧ snapshot.ramCopy.isSome then
    some (Vm.kbdContent snapshot.kbdCopy snapshot.kbdHead snapshot.kbdTail)
  else none

def Machine.kbdFifo (m : Machine n W) : KbdFifo := ⟨m.vm.host.kbdContent, m.snapshot.kbdContent⟩

theorem vmHostKbdPush_full {scancode : Byte} (failed : (vmHostKbdPush host scancode).1 = false) :
    (vmHostKbdPush host scancode).2 = host := by
  by_cases full : host.kbdTail + 1 = host.kbdHead
  · rw [vmHostKbdPush, if_pos full]
  · rw [vmHostKbdPush, if_neg full] at failed
    cases failed

variable (env : Env W)

theorem push_step (m : Machine n W) (scancode : Byte) :
    m.kbdFifo.Step (.push scancode) (kbdCall env m (.push scancode)).1 (kbdCall env m (.push scancode)).2.kbdFifo := by
  simp only [kbdCall, vmHostKbdPush]
  split
  · next full => exact .full ((kbd_full_iff ..).mp full)
  · next room =>
      have content := kbdContent_push m.vm.host.kbdQueue scancode room
      have pushed : m.kbdFifo.Step (.push scancode) (.status true) _ := .pushed (kbd_room m.vm.host.kbdQueue room)
      rw [show m.kbdFifo.queue ++ [scancode] = _ from content.symm] at pushed
      exact pushed

theorem pop_step (m : Machine n W) :
    m.kbdFifo.Step .pop (kbdCall env m .pop).1 (kbdCall env m .pop).2.kbdFifo := by
  simp only [kbdCall, vmHostKbdPop]
  split
  · next empty =>
      have content : m.vm.host.kbdContent = [] := (kbd_empty_iff ..).mp empty
      simp only [Machine.kbdFifo, content]
      exact .empty
  · next occupied =>
      have content := kbdContent_pop m.vm.host.kbdQueue occupied
      simp only [Machine.kbdFifo, VmHost.kbdContent, content]
      exact .popped

theorem save_step (m : Machine n W) :
    m.kbdFifo.Step .save (kbdCall env m .save).1 (kbdCall env m .save).2.kbdFifo := by
  simp only [kbdCall, vmSnapshotSave, vmSnapshotSaveOn]
  split
  · exact .unsaved
  · split
    · exact .unsaved
    · exact .saved

theorem restore_step (m : Machine n W) :
    m.kbdFifo.Step .restore (kbdCall env m .restore).1 (kbdCall env m .restore).2.kbdFifo := by
  simp only [kbdCall, vmSnapshotRestore, vmSnapshotRestoreOn]
  split
  · next ram checkpoint copy =>
      have saved : m.snapshot.kbdContent = some _ := if_pos ⟨checkpoint, by rw [copy]; rfl⟩
      simp only [Machine.kbdFifo, saved]
      exact .restored
  · next missing =>
      have saved : m.snapshot.kbdContent = none := if_neg fun ⟨checkpoint, copy⟩ =>
        missing _ checkpoint (Option.some_get copy).symm
      simp only [Machine.kbdFifo, saved]
      exact .unrestored

theorem kbdCall_step (m : Machine n W) (call : KbdCall) :
    m.kbdFifo.Step call (kbdCall env m call).1 (kbdCall env m call).2.kbdFifo := by
  cases call with
  | push scancode => exact push_step env m scancode
  | pop => exact pop_step env m
  | save => exact save_step env m
  | restore => exact restore_step env m

theorem kbdRun_runs (calls : List KbdCall) (m : Machine n W) :
    m.kbdFifo.Runs calls (kbdRun env calls m).1 (kbdRun env calls m).2.kbdFifo := by
  induction calls generalizing m with
  | nil => exact .nil
  | cons call rest ih => exact .cons (kbdCall_step env m call) (ih _)

theorem kbdFifo_length (m : Machine n W) : m.kbdFifo.queue.length ≤ kbdRoom := by
  have length : m.kbdFifo.queue.length = _ := length_kbdContent ..
  have bound := (m.vm.host.kbdTail - m.vm.host.kbdHead).isLt
  rw [length]
  exact Nat.le_of_lt_succ bound

theorem created_empty {mem : VmMem n} (created : vmHostCreate mem = .ok (some host)) : host.kbdContent = [] := by
  obtain ⟨loaded, -, rest⟩ := bind_eq_ok.mp created
  cases loaded with
  | none => cases rest
  | some mem =>
    obtain ⟨drawn, -, made⟩ := bind_eq_ok.mp rest
    cases made
    exact (kbd_empty_iff _ 0 0).mp rfl

/-- A queue of at most 31 scancodes; a restore brings back the queue of the last save. -/
theorem kbd_ring_refines_fifo {mem : VmMem n} {m : Machine n W} (created : vmHostCreate mem = .ok (some m.vm.host))
    (env : Env W) (calls : List KbdCall) :
    let (replies, m') := kbdRun env calls m
    m.kbdFifo.queue = [] ∧ m.kbdFifo.Runs calls replies m'.kbdFifo ∧ m'.kbdFifo.queue.length ≤ kbdRoom ∧
      ∀ scancode, (vmHostKbdPush m'.vm.host scancode).1 = false → (vmHostKbdPush m'.vm.host scancode).2 = m'.vm.host :=
  ⟨created_empty created, kbdRun_runs env calls m, kbdFifo_length _, fun _ => vmHostKbdPush_full⟩

theorem kbd_scancode_restored : ∃ (host : VmHost guestRamSize) (m m' : Machine guestRamSize Unit),
      vmHostCreate guestMem = .ok (some host) ∧ m.vm.host = host ∧ m.kbdFifo.queue = [] ∧
      m.kbdFifo.Runs [.push 0x1E, .save, .pop, .restore, .pop]
        [.status true, .status true, .scancode (some 0x1E), .status true, .scancode (some 0x1E)] m'.kbdFifo := by
  have created := vmHostCreate_eq guestMem
  obtain ⟨empty, runs, -⟩ := kbd_ring_refines_fifo
    (m := Machine.ofGuest { guestAfterInit with host := _ }) created idleHost
    [.push 0x1E, .save, .pop, .restore, .pop]
  exact ⟨_, _, _, created, rfl, empty, runs⟩

end Flinstone.Vm
