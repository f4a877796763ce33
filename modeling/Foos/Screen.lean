import Foos.Transition
import Foos.Tty

/-! Where `tty_writechar` and `tty_clear` write, and where they leave the cursor. -/
namespace Foos.Terminal
open Transition

/-- The cells of the screen. -/
def OnScreen (i : Int) : Prop := 0 ≤ i ∧ i < 2000

/-- A character that is shown where the cursor is. -/
def Printable (c : UInt8) : Prop := c ≠ 8 ∧ c ≠ 9 ∧ c ≠ 10 ∧ c ≠ 13

theorem drawCells_append (cells : Int → Nat) (ops ops' : List CellOp) :
    drawCells cells (ops ++ ops') = drawCells (drawCells cells ops) ops' :=
  List.foldl_append

theorem drawCells_cell (cells : Int → Nat) (a : Int) (val : Nat) (i : Int) :
    drawCells cells [.put a val] i = if i = a then val else cells i := by
  rw [drawCells, List.foldl_cons, List.foldl_nil, CellOp.run, Function.update_apply]

/-- Cells are copied towards the front, where the copies overtake no source. -/
theorem drawCells_copy (cells : Int → Nat) {d e n : Nat} (h : d + n ≤ e) (i : Int) :
    drawCells cells ((List.range n).map fun j : Nat => .copy (d + j : Nat) (e + j : Nat)) i =
      if d ≤ i ∧ i < d + n then cells (i - d + e) else cells i := by
  induction n generalizing i with
  | zero =>
    rw [if_neg (by omega)]
    rfl
  | succ n ih =>
    rw [List.range_succ, List.map_append, drawCells_append]
    simp only [List.map_cons, List.map_nil, drawCells, List.foldl_cons, List.foldl_nil, CellOp.run]
    simp only [drawCells] at ih
    by_cases hi : i = (d + n : Nat)
    · rw [hi, Function.update_self, ih (by omega), if_neg (by omega), if_pos (by omega)]
      congr 1
      omega
    · rw [Function.update_of_ne hi, ih (by omega)]
      split_ifs <;> first | rfl | omega

theorem drawCells_put (cells : Int → Nat) (d n val : Nat) (i : Int) :
    drawCells cells ((List.range n).map fun j : Nat => .put (d + j : Nat) val) i =
      if d ≤ i ∧ i < d + n then val else cells i := by
  induction n with
  | zero =>
    rw [if_neg (by omega)]
    rfl
  | succ n ih =>
    rw [List.range_succ, List.map_append, drawCells_append, List.map_cons, List.map_nil,
      drawCells_cell, ih]
    split_ifs <;> first | rfl | omega

theorem drawCells_lines (cells : Int → Nat) (n : Nat) (i : Int) :
    drawCells cells ((List.range n).flatMap shiftLine) i =
      if 0 ≤ i ∧ i < n * 80 then cells (i + 80) else cells i := by
  induction n generalizing i with
  | zero =>
    rw [if_neg (by omega)]
    rfl
  | succ n ih =>
    rw [List.range_succ, List.flatMap_append, drawCells_append, List.flatMap_singleton, shiftLine]
    simp only [VGA_WIDTH]
    rw [drawCells_copy _ (by omega), ih, ih]
    split_ifs <;> first | rfl | omega | (congr 1; omega)

/-- The lines on the screen move up, and the last line is cleaned. -/
theorem drawCells_scroll (cells : Int → Nat) (i : Int) : drawCells cells scroll i =
    if 0 ≤ i ∧ i < 1920 then cells (i + 80) else if 1920 ≤ i ∧ i < 2000 then blank else cells i := by
  rw [scroll, drawCells_append, cleanLine]
  simp only [VGA_WIDTH, VGA_HEIGHT]
  rw [drawCells_put, drawCells_lines]
  split_ifs <;> first | rfl | omega

theorem scroll_onScreen : ∀ op ∈ scroll, OnScreen op.cell := by
  intro op hop
  cases List.mem_append.mp hop with
  | inl hop =>
    obtain ⟨n, hn, hop⟩ := List.mem_flatMap.mp hop
    obtain ⟨j, hj, rfl⟩ := List.mem_map.mp hop
    have hn' := List.mem_range.mp hn
    have hj' := List.mem_range.mp hj
    simp only [VGA_WIDTH, VGA_HEIGHT] at hn' hj'
    simp only [OnScreen, CellOp.cell, VGA_WIDTH]
    omega
  | inr hop =>
    obtain ⟨j, hj, rfl⟩ := List.mem_map.mp hop
    have hj' := List.mem_range.mp hj
    simp only [VGA_WIDTH] at hj'
    simp only [OnScreen, CellOp.cell, VGA_WIDTH, VGA_HEIGHT]
    omega

theorem clearCells_onScreen : ∀ op ∈ clearCells, OnScreen op.cell := by
  intro op hop
  obtain ⟨i, hi, rfl⟩ := List.mem_map.mp hop
  have hi' := List.mem_range.mp (List.mem_reverse.mp hi)
  simp only [VGA_WIDTH, VGA_HEIGHT] at hi'
  simp only [OnScreen, CellOp.cell]
  omega

/-- The position behind the character, before the screen scrolls. -/
theorem place_position (color : UInt8) {c : UInt8} {current : Nat} (hb : c = 8 → current ≠ 0) :
    ∃ ops x y, place color c current = (ops, x, y) ∧ -1 ≤ x ∧ x ≤ 80 ∧ 0 ≤ y ∧
      (x < 0 → 1 ≤ y) := by
  have hx : current % 80 < 80 := Nat.mod_lt _ (by decide)
  simp only [place, VGA_X, VGA_Y, VGA_WIDTH]
  split_ifs with h10 h13 h9 h8
  · exact ⟨_, _, _, rfl, by omega⟩
  · exact ⟨_, _, _, rfl, by omega⟩
  · exact ⟨_, _, _, rfl, by omega⟩
  · have := hb h8
    exact ⟨_, _, _, rfl, by omega⟩
  · exact ⟨_, _, _, rfl, by omega⟩

theorem coord_lt {x y : Int} (hx : 0 ≤ x) (hx' : x < 80) (hy : 0 ≤ y) (hy' : y < 25) :
    (VGA_COORD x y % 65536).toNat < 2000 := by
  simp only [VGA_COORD, VGA_WIDTH]
  rw [Int.emod_eq_of_lt (by omega) (by omega)]
  omega

/-- Wherever it comes from, the cursor goes to the screen; but not by a backspace at 0. -/
theorem advance_lt_screen {color c : UInt8} {current : Nat} (hb : c = 8 → current ≠ 0) :
    (advance color c current).2 < 2000 := by
  obtain ⟨ops, x, y, hplace, h⟩ := place_position color hb
  simp only [advance, wrap, hplace, VGA_HEIGHT]
  split_ifs <;> exact coord_lt (by simp only; omega) (by simp only; omega) (by simp only; omega)
    (by simp only; omega)

theorem place_onScreen {color c : UInt8} {current : Nat} (h : current < 2000)
    (hb : c = 8 → current ≠ 0) : ∀ op ∈ (place color c current).1, OnScreen op.cell := by
  intro op hop
  unfold place at hop
  split_ifs at hop with h10 h13 h9 h8
  · exact absurd hop List.not_mem_nil
  · exact absurd hop List.not_mem_nil
  · exact absurd hop List.not_mem_nil
  · have := hb h8
    rw [List.mem_singleton.mp hop]
    simp only [OnScreen, CellOp.cell]
    omega
  · rw [List.mem_singleton.mp hop]
    simp only [OnScreen, CellOp.cell]
    omega

theorem advance_cells (color c : UInt8) (current : Nat) : (advance color c current).1 =
    (place color c current).1 ∨ (advance color c current).1 = (place color c current).1 ++ scroll := by
  simp only [advance]
  split_ifs <;> simp

theorem advance_onScreen {color c : UInt8} {current : Nat} (h : current < 2000)
    (hb : c = 8 → current ≠ 0) : ∀ op ∈ (advance color c current).1, OnScreen op.cell := by
  intro op hop
  cases advance_cells color c current with
  | inl heq => exact place_onScreen h hb op (heq ▸ hop)
  | inr heq =>
    rw [heq] at hop
    exact (List.mem_append.mp hop).elim (place_onScreen h hb op) (scroll_onScreen op)

/-- A backspace at the first cell writes in front of the screen. -/
theorem advance_front (color : UInt8) : CellOp.put (-1) blank ∈ (advance color 8 0).1 := by
  have hmem : CellOp.put (-1) blank ∈ (place color 8 0).1 := by simp [place]
  cases advance_cells color 8 0 with
  | inl heq => exact heq ▸ hmem
  | inr heq => exact heq ▸ List.mem_append_left _ hmem

/-- The character takes the text over the end of the screen. -/
def Scrolls (color c : UInt8) (current : Nat) : Prop :=
  VGA_HEIGHT ≤ (wrap (place color c current).2.1 (place color c current).2.2).2

instance (color c : UInt8) (current : Nat) : Decidable (Scrolls color c current) :=
  inferInstanceAs (Decidable ((VGA_HEIGHT : Int) ≤ _))

theorem place_printable {color c : UInt8} (hc : Printable c) (current : Nat) :
    place color c current =
      ([CellOp.put current (cellOf color c)], ((current % 80 : Nat) : Int) + 1,
        ((current / 80 : Nat) : Int)) := by
  obtain ⟨h8, h9, h10, h13⟩ := hc
  simp only [place, if_neg h8, if_neg h9, if_neg h10, if_neg h13, VGA_X, VGA_Y, VGA_WIDTH]

theorem advance_printable (color : UInt8) {c : UInt8} {current : Nat} (hc : Printable c)
    (h : current < 1999) : advance color c current =
      ([CellOp.put current (cellOf color c)], current + 1) ∧ ¬ Scrolls color c current := by
  have hx : current % 80 < 80 := Nat.mod_lt _ (by decide)
  simp only [advance, Scrolls, place_printable hc, wrap, VGA_HEIGHT, VGA_COORD, VGA_WIDTH]
  split_ifs <;> simp <;> omega

theorem advance_last (color : UInt8) {c : UInt8} (hc : Printable c) : advance color c 1999 =
    ([CellOp.put 1999 (cellOf color c)] ++ scroll, 1920) ∧ Scrolls color c 1999 := by
  simp only [advance, Scrolls, place_printable hc]
  exact ⟨rfl, by decide⟩

theorem advance_backspace (color : UInt8) {current : Nat} (h0 : 0 < current)
    (h : current < 2000) : advance color 8 current =
      ([CellOp.put (current - 1) blank], current - 1) ∧ ¬ Scrolls color 8 current := by
  have hx : current % 80 < 80 := Nat.mod_lt _ (by decide)
  have hplace : place color 8 current = ([CellOp.put (current - 1) blank],
      ((current % 80 : Nat) : Int) - 1, ((current / 80 : Nat) : Int)) := rfl
  simp only [advance, Scrolls, hplace, wrap, VGA_HEIGHT, VGA_COORD, VGA_WIDTH]
  split_ifs <;> simp <;> omega

/-- What is asked of the terminal: a character of a `tty_write`, or `TTY_CLEAR`. -/
inductive Act where
  | char (c : UInt8)
  | clear

def act (s : Console) : Act → Console
  | .char c => ttyWritechar s c
  | .clear => ttyClear s

def Step (s : Console) (a : Act) (t : Console) : Prop := t = act s a

/-- The cells that are written meanwhile. -/
def written (s : Console) : Act → List CellOp
  | .char c => (advance s.tty.color c s.vga.cursor).1
  | .clear => clearCells

/-- Afterwards the cursor is on the screen, as are all cells written. -/
def StaysOnScreen (s : Console) (a : Act) : Prop :=
  (act s a).vga.cursor < 2000 ∧ ∀ op ∈ written s a, OnScreen op.cell

/-- A run of requests is a run of their characters. -/
theorem ttyWrite_run (s : Console) (data : List UInt8) :
    ∃ tr, Run Step s tr (ttyWrite s data) ∧ tr.map (fun e => e.2.1) = data.map Act.char := by
  induction data generalizing s with
  | nil => exact ⟨[], .nil, rfl⟩
  | cons c data ih =>
    obtain ⟨tr, hrun, hmap⟩ := ih (ttyWritechar s c)
    refine ⟨(s, .char c, ttyWritechar s c) :: tr, Run.cons rfl hrun, ?_⟩
    rw [List.map_cons, List.map_cons, hmap]

theorem written_cells (s : Console) (a : Act) :
    (act s a).vga.cells = drawCells s.vga.cells (written s a) := by
  cases a with
  | char c => exact ttyWritechar_cells s c
  | clear => rw [act, ttyClear, ttyUpdateCursor_cells, draw_cells, written]

theorem staysOnScreen_iff {s : Console} {a : Act} (h : s.vga.cursor < 2000) :
    StaysOnScreen s a ↔ ¬ (a = .char 8 ∧ s.vga.cursor = 0) := by
  constructor
  · rintro ⟨-, hcells⟩ ⟨rfl, h0⟩
    have hmem : CellOp.put (-1) blank ∈ written s (.char 8) := by
      rw [written, h0]
      exact advance_front _
    exact absurd (hcells _ hmem).1 (by decide)
  · intro hnot
    cases a with
    | char c =>
      have hb : c = 8 → s.vga.cursor ≠ 0 := fun hc h0 => hnot ⟨hc ▸ rfl, h0⟩
      refine ⟨?_, advance_onScreen h hb⟩
      rw [act, ttyWritechar_cursor]
      exact advance_lt_screen hb
    | clear =>
      refine ⟨?_, clearCells_onScreen⟩
      rw [act, ttyClear, ttyUpdateCursor_cursor _ (by decide)]
      decide

/-- In a run of any length from a cursor on the screen, the cursor and all cells written stay on
the screen exactly when no backspace is written at the first cell. -/
theorem run_staysOnScreen_iff {s t : Console} {tr : List (Console × Act × Console)}
    (h : s.vga.cursor < 2000) (hrun : Run Step s tr t) :
    (∀ e ∈ tr, StaysOnScreen e.1 e.2.1) ↔ ∀ e ∈ tr, ¬ (e.2.1 = .char 8 ∧ e.1.vga.cursor = 0) := by
  have hinv : ∀ s a t, s.vga.cursor < 2000 → StaysOnScreen s a → Step s a t →
      t.vga.cursor < 2000 := by
    rintro s a t - hs rfl
    exact hs.1
  have hinv' : ∀ s a t, s.vga.cursor < 2000 → ¬ (a = .char 8 ∧ s.vga.cursor = 0) → Step s a t →
      t.vga.cursor < 2000 := fun s a t hs hq => hinv s a t hs ((staysOnScreen_iff hs).mpr hq)
  constructor
  · exact fun hall e he =>
      (staysOnScreen_iff (hrun.invariant_at hinv h hall he).1).mp (hall e he)
  · exact fun hall e he =>
      (staysOnScreen_iff (hrun.invariant_at hinv' h hall he).1).mpr (hall e he)

/-- A blank screen, the cursor at the first cell. -/
def blankConsole : Console :=
  ⟨⟨0, fun _ => 0, fun _ => blank⟩, ⟨7, 0, 0, fun _ => 0, 0, 0, ⟨false, false, false, false, false,
    false, false⟩⟩⟩

theorem run_staysOnScreen_iff_hi :
    (∀ e ∈ [(blankConsole, Act.char 104, act blankConsole (.char 104))], StaysOnScreen e.1 e.2.1) ↔
      ∀ e ∈ [(blankConsole, Act.char 104, act blankConsole (.char 104))],
        ¬ (e.2.1 = .char 8 ∧ e.1.vga.cursor = 0) :=
  run_staysOnScreen_iff (by decide) (Run.cons rfl .nil)

/-- A backspace on the blank screen takes the cursor to 65535. -/
theorem run_staysOnScreen_fails : Run Step blankConsole
      [(blankConsole, .char 8, act blankConsole (.char 8))] (act blankConsole (.char 8)) ∧
    ¬ StaysOnScreen blankConsole (.char 8) ∧ (act blankConsole (.char 8)).vga.cursor = 65535 :=
  ⟨Run.cons rfl .nil, fun h => (staysOnScreen_iff (by decide)).mp h ⟨rfl, rfl⟩, by
    decide +kernel⟩

end Foos.Terminal
