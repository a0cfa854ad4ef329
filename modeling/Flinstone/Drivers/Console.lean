import Flinstone.Lib.Calls
import Mathlib.Data.List.GetD
import Mathlib.Logic.Function.Basic

/-!
# The VGA console

`display_driver.c` for x86.
-/

namespace Flinstone.Drivers
open Flinstone.Lib List Function Option

abbrev Cells := Nat → BitVec 16

structure Display where
  row : Int
  col : Int
  color : BitVec 8
  cursorDirty : Bool
  vga : Cells
  cursorHi : BitVec 8
  cursorLo : BitVec 8

def vgaCols : Nat := 80
def vgaRows : Nat := 25

def mmioRead16 (vga : Cells) (i : Int) : Option (BitVec 16) := if 0 ≤ i ∧ i < 2000 then some (vga i.toNat) else none

def mmioWrite16 (vga : Cells) (i : Int) (v : BitVec 16) : Option Cells :=
  if 0 ≤ i ∧ i < 2000 then some (update vga i.toNat v) else none

def cell (color c : BitVec 8) : BitVec 16 := c.setWidth 16 ||| color.setWidth 16 <<< 8

def blank (color : BitVec 8) : BitVec 16 := cell color 32

-- `for (int i = first; i < first + count; i++)`
def forFrom (body : Int → Cells → Option Cells) : Int → Nat → Cells → Option Cells
  | _, 0, vga => some vga
  | i, count + 1, vga => body i vga >>= forFrom body (i + 1) count

def clampTo (limit : Nat) (i : Int) : Int :=
  let i := if i < 0 then 0 else i
  if i ≥ limit then limit - 1 else i

def vgaSetHwCursor (d : Display) (row col : Int) : Display :=
  let pos := BitVec.ofInt 16 (clampTo vgaRows row * vgaCols + clampTo vgaCols col)
  { d with cursorHi := (pos >>> 8).setWidth 8, cursorLo := pos.setWidth 8 }

def scroll (color : BitVec 8) (vga : Cells) : Option Cells := do
  let vga ← forFrom (fun i vga => mmioRead16 vga (i + vgaCols) >>= mmioWrite16 vga i) 0 ((vgaRows - 1) * vgaCols) vga
  forFrom (fun i vga => mmioWrite16 vga i (blank color)) ((vgaRows - 1) * vgaCols : Nat) vgaCols vga

def nextRow (d : Display) : Option Display :=
  let d := { d with row := d.row + 1 }
  if (vgaRows : Int) ≤ d.row then do
    let d := { d with row := vgaRows - 1 }
    let vga ← scroll d.color d.vga
    let d := vgaSetHwCursor { d with vga } d.row d.col
    return { d with cursorDirty := false }
  else some { d with cursorDirty := true }

def hwPutchar (c : BitVec 8) (d : Display) : Option Display :=
  if c = 10 then
    nextRow { d with col := 0 }
  else do
    let idx := d.row * vgaCols + d.col
    let vga ← mmioWrite16 d.vga idx (cell d.color c)
    let d := { d with vga }
    let d := { d with col := d.col + 1 }
    if (vgaCols : Int) ≤ d.col then nextRow { d with col := 0 }
    else return { d with cursorDirty := true }

def asmMemCopy (dst : Int) (words : List (BitVec 16)) : Cells → Option Cells :=
  forFrom (fun i vga => mmioWrite16 vga i (words.getD (i - dst).toNat 0)) dst words.length

def hwClear (d : Display) : Option Display := do
  let rowBuf := List.replicate vgaCols (blank d.color)
  let vga ← forFrom (fun r => asmMemCopy (r * vgaCols) rowBuf) 0 vgaRows d.vga
  let d := vgaSetHwCursor { d with vga, row := 0, col := 0 } 0 0
  return { d with cursorDirty := false }

def hwSetCursor (row col : Int) (d : Display) : Display :=
  let row := clampTo vgaRows row
  let col := clampTo vgaCols col
  let d := vgaSetHwCursor { d with row, col } row col
  { d with cursorDirty := false }

def displayDriverCreate (vga : Cells) : Display := ⟨0, 0, 7, false, vga, 0, 0⟩

inductive ConsoleCall where
  | putchar (c : BitVec 8)
  | clear
  | setCursor (row col : Int)

def ConsoleCall.exec : ConsoleCall → Display → Option Display
  | putchar c, d => hwPutchar c d
  | clear, d => hwClear d
  | setCursor row col, d => some (hwSetCursor row col d)

/-! ## Text in rows -/

structure Page where
  done : List (List (BitVec 8))
  current : List (BitVec 8)

def Page.put (page : Page) (c : BitVec 8) : Page :=
  if c = 10 then ⟨page.done ++ [page.current], []⟩
  else if page.current.length + 1 = vgaCols then ⟨page.done ++ [page.current ++ [c]], []⟩
  else ⟨page.done, page.current ++ [c]⟩

def layOut (text : List (BitVec 8)) : Page := text.foldl Page.put ⟨[], []⟩

def Page.rows (page : Page) : List (List (BitVec 8)) := page.done ++ [page.current]

def screen (color : BitVec 8) (rows : List (List (BitVec 8))) (i : Nat) : BitVec 16 :=
  let shown := rows.drop (rows.length - vgaRows)
  cell color ((shown.getD (i / vgaCols) []).getD (i % vgaCols) 32)

/-! ## Loops over cells -/

variable {vga : Cells} {color c : BitVec 8} {d : Display}
variable {i limit : Nat} {page : Page}

theorem mmioWrite16_eq (inside : i < 2000) (v : BitVec 16) : mmioWrite16 vga i v = some (update vga i v) := by
  rw [mmioWrite16, if_pos (by omega), Int.toNat_natCast]

theorem forFrom_eq (body : Int → Cells → Option Cells) (vga : Cells) (wrote : Nat → Cells → BitVec 16)
    (writes : ∀ i < limit, ∀ vga, body i vga = some (update vga i (wrote i vga)))
    (early : ∀ i < limit, ∀ j < i, ∀ vga v, wrote i (update vga j v) = wrote i vga) {count : Nat}
    (inside : i + count ≤ limit) :
    forFrom body i count vga = some fun j => if i ≤ j ∧ j < i + count then wrote j vga else vga j := by
  induction count generalizing i vga with
  | zero =>
    rw [forFrom]
    congr 1
    funext j
    rw [if_neg (by omega)]
  | succ count ih =>
    rw [forFrom, writes i (by omega), bind_eq_bind, bind_some, ← Int.natCast_succ, ih _ (by omega)]
    congr 1
    funext j
    by_cases here : j = i
    · subst here
      rw [if_neg (by omega), if_pos (by omega), update_self]
    · rw [update_of_ne here]
      by_cases later : i + 1 ≤ j ∧ j < i + 1 + count
      · rw [if_pos later, if_pos (by omega), early j (by omega) i (by omega)]
      · rw [if_neg later, if_neg (by omega)]

theorem scroll_eq (color : BitVec 8) (vga : Cells) : ∃ vga', scroll color vga = some vga' ∧
    ∀ i < 2000, vga' i = if i < 1920 then vga (i + 80) else blank color := by
  have copies (i : Nat) (inside : i < 1920) (vga : Cells) :
      (mmioRead16 vga (i + vgaCols) >>= mmioWrite16 vga i) = some (update vga i (vga (i + 80))) := by
    have place : (i : Int) + vgaCols = (i + 80 : Nat) := by
      unfold vgaCols
      omega
    rw [place, mmioRead16, if_pos (by omega), Int.toNat_natCast, bind_eq_bind, bind_some,
      mmioWrite16_eq (by omega)]
  have copied := forFrom_eq (fun i vga => mmioRead16 vga (i + vgaCols) >>= mmioWrite16 vga i) vga
    (fun i vga => vga (i + 80)) copies (fun i _ j below vga v => ?_)
    (show 0 + (vgaRows - 1) * vgaCols ≤ 1920 by decide)
  have filled (vga : Cells) := forFrom_eq (fun i vga => mmioWrite16 vga i (blank color)) vga (fun _ _ => blank color)
    (fun i inside vga => mmioWrite16_eq inside (blank color)) (fun _ _ _ _ _ _ => rfl)
    (show (vgaRows - 1) * vgaCols + vgaCols ≤ 2000 by decide)
  rw [Int.natCast_zero] at copied
  refine ⟨_, by rw [scroll, copied, bind_eq_bind, bind_some, filled], fun i inside => ?_⟩
  · simp only [vgaRows, vgaCols]
    grind
  · rw [update_of_ne (show i + 80 ≠ j by omega)]

theorem asmMemCopy_blank {r : Nat} (inside : r < 25) (v : BitVec 16) :
    asmMemCopy (r * vgaCols) (replicate vgaCols v) vga =
      some fun j => if r * 80 ≤ j ∧ j < r * 80 + 80 then v else vga j := by
  have place : (r : Int) * vgaCols = (r * 80 : Nat) := by
    unfold vgaCols
    omega
  have writes (i : Nat) (below : i < r * 80 + 80) (vga : Cells) :
      mmioWrite16 vga i ((replicate vgaCols v).getD (i - (r * 80 : Nat) : Int).toNat 0) =
        some (update vga i v) := by
    rw [mmioWrite16_eq (by omega), getD_replicate v (by unfold vgaCols; omega)]
  rw [asmMemCopy, place, length_replicate]
  have filled := forFrom_eq
    (fun i vga => mmioWrite16 vga i ((replicate vgaCols v).getD (i - (r * 80 : Nat)).toNat 0)) vga (fun _ _ => v)
    writes (fun _ _ _ _ _ _ => rfl) (show r * 80 + vgaCols ≤ r * 80 + 80 from Nat.le_refl _)
  rw [filled]
  rfl

theorem forFrom_rows (v : BitVec 16) (vga : Cells) (r count : Nat) (inside : r + count ≤ 25) : ∃ vga',
    forFrom (fun r => asmMemCopy (r * vgaCols) (replicate vgaCols v)) r count vga = some vga' ∧
      ∀ j, vga' j = if r * 80 ≤ j ∧ j < (r + count) * 80 then v else vga j := by
  induction count generalizing r vga with
  | zero => exact ⟨vga, rfl, fun j => by rw [if_neg (by omega)]⟩
  | succ count ih =>
    rw [forFrom, asmMemCopy_blank (by omega), bind_eq_bind, bind_some]
    obtain ⟨vga', filled, cells⟩ := ih _ (r + 1) (by omega)
    refine ⟨vga', filled, fun j => ?_⟩
    grind

theorem hwClear_eq (d : Display) : ∃ d', hwClear d = some d' ∧ d'.row = 0 ∧ d'.col = 0 ∧ d'.color = d.color ∧
    ∀ i < 2000, d'.vga i = blank d.color := by
  obtain ⟨vga', filled, cells⟩ := forFrom_rows (blank d.color) d.vga 0 vgaRows (by decide)
  refine ⟨_, congrArg (· >>= _) filled, rfl, rfl, rfl, fun i inside => (cells i).trans (if_pos ?_)⟩
  unfold vgaRows
  omega

theorem nextRow_spec (d : Display) : ∃ d', nextRow d = some d' ∧ d'.color = d.color ∧ d'.col = d.col ∧
    (d'.row = d.row + 1 ∧ d.row < 24 ∧ d'.vga = d.vga ∨
      d'.row = 24 ∧ 24 ≤ d.row ∧ ∀ i < 2000, d'.vga i = if i < 1920 then d.vga (i + 80) else blank d.color) := by
  have bound : (vgaRows : Int) ≤ d.row + 1 ↔ 24 ≤ d.row := by
    unfold vgaRows
    omega
  by_cases last : 24 ≤ d.row
  · obtain ⟨vga', scrolled, cells⟩ := scroll_eq d.color d.vga
    simp only [nextRow, bound, if_pos last, scrolled]
    exact ⟨_, rfl, rfl, rfl, .inr ⟨rfl, last, cells⟩⟩
  · simp only [nextRow, bound, if_neg last]
    exact ⟨_, rfl, rfl, rfl, .inl ⟨rfl, by omega, rfl⟩⟩

theorem hwPutchar_char (other : c ≠ 10) {row col : Nat} (here : d.row = row) (there : d.col = col) (below : row < 25)
    (right : col < 80) :
    hwPutchar c d = if 80 ≤ col + 1
      then nextRow { d with vga := update d.vga (row * 80 + col) (cell d.color c), col := 0 }
      else some { d with
        vga := update d.vga (row * 80 + col) (cell d.color c), col := (col + 1 : Nat)
        cursorDirty := true } := by
  have place : (row : Int) * vgaCols + col = (row * 80 + col : Nat) := by
    unfold vgaCols
    omega
  have more : (vgaCols : Int) ≤ (col : Int) + 1 ↔ 80 ≤ col + 1 := by
    unfold vgaCols
    omega
  simp only [hwPutchar, if_neg other, here, there, place, mmioWrite16_eq (show row * 80 + col < 2000 by omega),
    bind_eq_bind, bind_some, more]
  rfl

structure Display.InScreen (d : Display) : Prop where
  top : 0 ≤ d.row
  bottom : d.row < 25
  left : 0 ≤ d.col
  right : d.col < 80

theorem clampTo_bounds (positive : 0 < limit) (i : Int) : 0 ≤ clampTo limit i ∧ clampTo limit i < limit := by
  unfold clampTo
  grind

theorem nextRow_inScreen (top : 0 ≤ d.row) (first : d.col = 0) : ∃ d', nextRow d = some d' ∧ d'.InScreen := by
  obtain ⟨d', result, -, col, place⟩ := nextRow_spec d
  exact ⟨d', result, by omega, by omega, by omega, by omega⟩

theorem hwPutchar_inScreen (c : BitVec 8) (inside : d.InScreen) : ∃ d', hwPutchar c d = some d' ∧ d'.InScreen := by
  obtain ⟨top, bottom, left, right⟩ := inside
  by_cases newline : c = 10
  · rw [hwPutchar, if_pos newline]
    exact nextRow_inScreen top rfl
  · obtain ⟨row, here⟩ := Int.eq_ofNat_of_zero_le top
    obtain ⟨col, there⟩ := Int.eq_ofNat_of_zero_le left
    rw [hwPutchar_char newline here there (by omega) (by omega)]
    split
    · exact nextRow_inScreen top rfl
    · exact ⟨_, rfl, top, bottom, Int.natCast_nonneg _, by dsimp only; omega⟩

theorem ConsoleCall.exec_inScreen (call : ConsoleCall) (inside : d.InScreen) :
    ∃ d', call.exec d = some d' ∧ d'.InScreen := by
  cases call with
  | putchar c => exact hwPutchar_inScreen c inside
  | clear =>
    obtain ⟨d', result, row, col, -⟩ := hwClear_eq d
    exact ⟨d', result, by omega, by omega, by omega, by omega⟩
  | setCursor row col =>
    have rows := clampTo_bounds (show 0 < vgaRows by decide) row
    have cols := clampTo_bounds (show 0 < vgaCols by decide) col
    exact ⟨_, rfl, rows.1, rows.2, cols.1, cols.2⟩

theorem runCalls_inScreen (calls : List ConsoleCall) (inside : d.InScreen) :
    ∃ d', runCalls ConsoleCall.exec calls d = some d' ∧ d'.InScreen := by
  induction calls generalizing d with
  | nil => exact ⟨d, rfl, inside⟩
  | cons call rest ih =>
    obtain ⟨next, result, inside⟩ := call.exec_inScreen inside
    rw [runCalls, result, bind_eq_bind, bind_some]
    exact ih inside

/-! ## The text on the screen -/

section
variable {done : List (List (BitVec 8))} {row : List (BitVec 8)} {i : Nat}

theorem screen_eq (color : BitVec 8) (rows : List (List (BitVec 8))) (i : Nat) :
    screen color rows i = cell color ((rows.getD (rows.length - 25 + i / 80) []).getD (i % 80) 32) := by
  simp only [screen, vgaRows, vgaCols, getD_eq_getElem?_getD, getElem?_drop]

theorem getD_concat {α : Type} (xs : List α) (x y : α) (k : Nat) :
    (xs ++ [x]).getD k y = if k = xs.length then x else xs.getD k y := by
  grind

theorem screen_write (short : row.length < 80) : screen color (done ++ [row ++ [c]]) i =
      if i = min done.length 24 * 80 + row.length then cell color c else screen color (done ++ [row]) i := by
  have place : i = min done.length 24 * 80 + row.length ↔
      done.length + 1 - 25 + i / 80 = done.length ∧ i % 80 = row.length := by omega
  simp only [screen_eq, getD_concat, length_append, length_singleton, place]
  split
  · next last =>
      rw [getD_concat]
      by_cases here : i % 80 = row.length
      · rw [if_pos here, if_pos ⟨last, here⟩]
      · rw [if_neg here, if_neg fun both => here both.2]
  · next other => rw [if_neg fun both => other both.1]

theorem screen_below (few : done.length < 25) : screen color (done ++ [[]]) i = screen color done i := by
  simp only [screen_eq, getD_concat, length_append, length_singleton]
  rw [show done.length + 1 - 25 = done.length - 25 by omega]
  split
  · next last => rw [last, getD_eq_default _ _ (Nat.le_refl _)]
  · rfl

theorem screen_scroll (many : 25 ≤ done.length) (inside : i < 2000) :
    screen color (done ++ [[]]) i = if i < 1920 then screen color done (i + 80) else blank color := by
  simp only [screen_eq, getD_concat, length_append, length_singleton]
  rw [show done.length - 25 + (i + 80) / 80 = done.length + 1 - 25 + i / 80 by omega, Nat.add_mod_right]
  by_cases early : i < 1920
  · rw [if_pos early, if_neg (by omega)]
  · rw [if_neg early, if_pos (by omega)]
    rfl

end

structure Shows (d : Display) (page : Page) : Prop where
  row : d.row = (min page.done.length 24 : Nat)
  col : d.col = page.current.length
  short : page.current.length < 80
  cells : ∀ i < 2000, d.vga i = screen d.color page.rows i

theorem nextRow_shows {done : List (List (BitVec 8))} {row : List (BitVec 8)}
    (here : d.row = (min done.length 24 : Nat)) (first : d.col = 0)
    (cells : ∀ i < 2000, d.vga i = screen d.color (done ++ [row]) i) :
    ∃ d', nextRow d = some d' ∧ d'.color = d.color ∧ Shows d' ⟨done ++ [row], []⟩ := by
  obtain ⟨d', result, color, col, place⟩ := nextRow_spec d
  refine ⟨d', result, color, ?_, col.trans first, Nat.zero_lt_succ 79, fun i inside => ?_⟩
  · dsimp only
    rw [length_append, length_singleton]
    omega
  · rw [Page.rows, color]
    rcases place with ⟨-, above, same⟩ | ⟨-, last, scrolled⟩
    · rw [same, cells i inside, screen_below (by rw [length_append, length_singleton]; omega)]
    · rw [scrolled i inside, screen_scroll (by rw [length_append, length_singleton]; omega) inside]
      split
      · exact cells (i + 80) (by omega)
      · rfl

theorem hwPutchar_shows (c : BitVec 8) (held : Shows d page) :
    ∃ d', hwPutchar c d = some d' ∧ d'.color = d.color ∧ Shows d' (page.put c) := by
  obtain ⟨row, col, short, cells⟩ := held
  by_cases newline : c = 10
  · rw [hwPutchar, Page.put, if_pos newline, if_pos newline]
    exact nextRow_shows row rfl cells
  · have written : ∀ i < 2000, update d.vga (min page.done.length 24 * 80 + page.current.length)
        (cell d.color c) i = screen d.color (page.done ++ [page.current ++ [c]]) i := by
      intro i inside
      rw [screen_write short, update_apply, cells i inside]
      rfl
    rw [hwPutchar_char newline row col (by omega) short, Page.put, if_neg newline]
    by_cases last : page.current.length + 1 = 80
    · rw [if_pos (by omega), if_pos (show _ = vgaCols from last)]
      exact nextRow_shows row rfl written
    · rw [if_neg (by omega), if_neg (show ¬ _ = vgaCols from last)]
      exact ⟨_, rfl, rfl, row, by simp, by simp; omega, written⟩

theorem putchars_show (text : List (BitVec 8)) (held : Shows d page) :
    ∃ d', runCalls ConsoleCall.exec (text.map .putchar) d = some d' ∧ d'.color = d.color ∧
      Shows d' (text.foldl Page.put page) := by
  induction text generalizing d page with
  | nil => exact ⟨d, rfl, rfl, held⟩
  | cons c rest ih =>
    obtain ⟨next, result, color, held⟩ := hwPutchar_shows c held
    rw [map_cons, runCalls, ConsoleCall.exec, result, bind_eq_bind, bind_some, ← color]
    exact ih held

/-- After `hw_clear` the screen has the last rows. -/
theorem console_shows (vga : Cells) :
    (∀ calls, ∃ d, runCalls ConsoleCall.exec calls (displayDriverCreate vga) = some d ∧ d.InScreen) ∧
      ∀ (d : Display) (text : List (BitVec 8)), ∃ d',
        runCalls ConsoleCall.exec (.clear :: text.map .putchar) d = some d' ∧ Shows d' (layOut text) ∧
          d'.color = d.color := by
  constructor
  · intro calls
    have first : (displayDriverCreate vga).InScreen := by constructor <;> simp [displayDriverCreate]
    exact runCalls_inScreen calls first
  · intro d text
    obtain ⟨next, result, row, col, color, cells⟩ := hwClear_eq d
    have empty : Shows next ⟨[], []⟩ := by
      refine ⟨row, col, by decide, fun i inside => ?_⟩
      rw [cells i inside, screen_eq, color]
      simp [Page.rows, blank]
    obtain ⟨d', ran, same, shown⟩ := putchars_show text empty
    rw [runCalls, ConsoleCall.exec, result, bind_eq_bind, bind_some]
    exact ⟨d', ran, shown, same.trans color⟩

end Flinstone.Drivers
