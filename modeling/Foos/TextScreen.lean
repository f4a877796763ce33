import Mathlib.Data.List.Basic

/-! A text terminal: rows of cells, a cursor on one of them, and the control characters that move
it. What a cell holds is left open, so that one terminal tells the characters on the screen and
another one their colors. -/
namespace TextScreen

/-- `h` rows of `w` cells; the cursor is always on one. -/
structure Screen (α : Type) (h w : Nat) where
  cells : Nat → Nat → α
  row : Nat
  col : Nat
  rowLt : row < h
  colLt : col < w

variable {α : Type} {h w : Nat}

namespace Screen

/-- The first column of the next row. Below the last row all rows move up, and a blank one comes
in. -/
def newline (t : Screen α h w) (blank : α) : Screen α h w :=
  if hr : t.row + 1 < h then
    { t with row := t.row + 1, col := 0, rowLt := hr, colLt := Nat.zero_lt_of_lt t.colLt }
  else
    { t with
      cells := fun r c => if r + 1 < h then t.cells (r + 1) c else blank
      col := 0
      colLt := Nat.zero_lt_of_lt t.colLt }

/-- A column of the row, or a new row behind the last one. -/
def goto (t : Screen α h w) (blank : α) (col : Nat) : Screen α h w :=
  if hc : col < w then { t with col := col, colLt := hc } else t.newline blank

def carriageReturn (t : Screen α h w) : Screen α h w :=
  { t with col := 0, colLt := Nat.zero_lt_of_lt t.colLt }

/-- To the next multiple of 8. -/
def tab (t : Screen α h w) (blank : α) : Screen α h w := t.goto blank ((t.col / 8 + 1) * 8)

def set (t : Screen α h w) (row col : Nat) (a : α) : Screen α h w :=
  { t with cells := fun r c => if r = row ∧ c = col then a else t.cells r c }

/-- The cell in front of the cursor is blanked and becomes its place. -/
def backspace (t : Screen α h w) (blank : α) : Screen α h w :=
  if 0 < t.col then
    { t.set t.row (t.col - 1) blank with
      col := t.col - 1
      colLt := Nat.lt_of_le_of_lt (Nat.sub_le t.col 1) t.colLt }
  else if 0 < t.row then
    { t.set (t.row - 1) (w - 1) blank with
      row := t.row - 1
      col := w - 1
      rowLt := Nat.lt_of_le_of_lt (Nat.sub_le t.row 1) t.rowLt
      colLt := Nat.sub_lt (Nat.zero_lt_of_lt t.colLt) Nat.one_pos }
  else t

def store (t : Screen α h w) (blank a : α) : Screen α h w :=
  (t.set t.row t.col a).goto blank (t.col + 1)

/-- A byte: `a` is what the cell under the cursor holds behind a character that is shown. -/
def put (t : Screen α h w) (blank a : α) (c : UInt8) : Screen α h w :=
  if c = 10 then t.newline blank
  else if c = 13 then t.carriageReturn
  else if c = 9 then t.tab blank
  else if c = 8 then t.backspace blank
  else t.store blank a

/-- A text of bytes, with what each leaves in its cell. -/
def write (t : Screen α h w) (blank : α) (val : UInt8 → α) (data : List UInt8) : Screen α h w :=
  data.foldl (fun t c => t.put blank (val c) c) t

/-- Every cell blank, the cursor at the first one. -/
def clear (t : Screen α h w) (blank : α) : Screen α h w :=
  { t with
    cells := fun _ _ => blank
    row := 0
    col := 0
    rowLt := Nat.zero_lt_of_lt t.rowLt
    colLt := Nat.zero_lt_of_lt t.colLt }

theorem newline_of_lt (t : Screen α h w) (blank : α) (hr : t.row + 1 < h) :
    (t.newline blank).cells = t.cells ∧ (t.newline blank).row = t.row + 1 ∧
      (t.newline blank).col = 0 := by
  rw [newline, dif_pos hr]
  exact ⟨rfl, rfl, rfl⟩

theorem newline_of_last (t : Screen α h w) (blank : α) (hr : ¬ t.row + 1 < h) :
    (t.newline blank).cells = (fun r c => if r + 1 < h then t.cells (r + 1) c else blank) ∧
      (t.newline blank).row = t.row ∧ (t.newline blank).col = 0 := by
  rw [newline, dif_neg hr]
  exact ⟨rfl, rfl, rfl⟩

theorem goto_of_lt (t : Screen α h w) (blank : α) {col : Nat} (hc : col < w) :
    t.goto blank col = { t with col := col, colLt := hc } := dif_pos hc

theorem goto_of_full (t : Screen α h w) (blank : α) {col : Nat} (hc : ¬ col < w) :
    t.goto blank col = t.newline blank := dif_neg hc

/-- The cell that holds what was stored at the cursor: at the end of the last row it moves up with
the others. -/
def landing (t : Screen α h w) : Nat × Nat :=
  if t.col + 1 < w ∨ t.row + 1 < h then (t.row, t.col) else (t.row - 1, t.col)

theorem landing_lt (t : Screen α h w) : t.landing.1 < h ∧ t.landing.2 < w := by
  have hr := t.rowLt
  have hc := t.colLt
  unfold landing
  split
  · exact ⟨hr, hc⟩
  · exact ⟨by omega, hc⟩

theorem store_landing (t : Screen α h w) (blank a : α) (hh : 1 < h) :
    (t.store blank a).cells t.landing.1 t.landing.2 = a := by
  have hset : (t.set t.row t.col a).cells t.row t.col = a := if_pos ⟨rfl, rfl⟩
  have hrow := t.rowLt
  unfold store landing
  by_cases hc : t.col + 1 < w
  · rw [if_pos (Or.inl hc), goto_of_lt _ blank hc]
    exact hset
  · rw [goto_of_full _ blank hc]
    by_cases hr : t.row + 1 < h
    · rw [if_pos (Or.inr hr), (newline_of_lt (t.set t.row t.col a) blank hr).1]
      exact hset
    · rw [if_neg (not_or.mpr ⟨hc, hr⟩), (newline_of_last (t.set t.row t.col a) blank hr).1]
      have hup : t.row - 1 + 1 = t.row := by omega
      simp only [hup, if_pos hrow]
      exact hset

end Screen

end TextScreen
