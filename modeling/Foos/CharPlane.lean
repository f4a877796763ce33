import Foos.Screen
import Foos.TextScreen

/-! The screen and the cursor of the video controller behave as those of a text terminal of 25 rows
and 80 columns. -/
namespace Foos.Terminal
open TextScreen

/-- The column and row that `tty_writechar` has behind the character: the lines that are moved for
it, and the cursor. -/
def settle (x y : Int) : List CellOp × Nat :=
  let (x, y) := wrap x y
  if VGA_HEIGHT ≤ y then (scroll, (VGA_COORD x (VGA_HEIGHT - 1) % 65536).toNat)
  else ([], (VGA_COORD x y % 65536).toNat)

theorem advance_settle (color c : UInt8) (current : Nat) : advance color c current =
    ((place color c current).1 ++
      (settle (place color c current).2.1 (place color c current).2.2).1,
      (settle (place color c current).2.1 (place color c current).2.2).2) := by
  simp only [advance, settle]
  split <;> simp

theorem settle_on {x y : Nat} (hx : x < 80) (hy : y < 25) : settle x y = ([], y * 80 + x) := by
  have hfull : ¬ (80 : Int) ≤ x := by omega
  have hfront : ¬ (x : Int) < 0 := by omega
  have hwrap : wrap (x : Int) y = ((x : Int), (y : Int)) := by
    simp only [wrap, if_neg hfull, if_neg hfront]
  have hheight : ¬ (VGA_HEIGHT : Int) ≤ y := by
    simp only [VGA_HEIGHT]
    omega
  simp only [settle, hwrap, if_neg hheight, VGA_COORD, VGA_WIDTH]
  congr 1
  omega

theorem settle_below : settle 0 25 = (scroll, 1920) := rfl

theorem settle_left (y : Int) : settle (-1) y = settle 79 (y - 1) := rfl

variable {α : Type} {R : α → Nat → Prop} {cells : Int → Nat} {current : Nat} {t : Screen α 25 80}

/-- The cells on the screen stand for those of `t`. -/
def ShowsCells (R : α → Nat → Prop) (cells : Int → Nat) (t : Nat → Nat → α) : Prop :=
  ∀ r c, r < 25 → c < 80 → R (t r c) (cells (r * 80 + c : Nat))

/-- So they do, and the cursor is where that of `t` is. -/
structure Shows (R : α → Nat → Prop) (cells : Int → Nat) (current : Nat) (t : Screen α 25 80) :
    Prop where
  cursor : current = t.row * 80 + t.col
  cells : ShowsCells R cells t.cells

theorem Shows.lt (h : Shows R cells current t) : current < 2000 := by
  have hr := t.rowLt
  have hc := t.colLt
  have := h.cursor
  omega

theorem ShowsCells.set (h : ShowsCells R cells t.cells) (row : Nat) {col val : Nat} {a : α}
    (hcol : col < 80) (ha : R a val) :
    ShowsCells R (drawCells cells [.put (row * 80 + col : Nat) val]) (t.set row col a).cells := by
  intro r c hr hc
  rw [drawCells_cell]
  simp only [Screen.set]
  by_cases heq : r = row ∧ c = col
  · obtain ⟨rfl, rfl⟩ := heq
    rw [if_pos rfl, if_pos ⟨rfl, rfl⟩]
    exact ha
  · rw [if_neg heq, if_neg (by omega)]
    exact h r c hr hc

/-- A new line, with the lines that are moved when there is none. -/
theorem ShowsCells.newline (h : ShowsCells R cells t.cells) {b : α} (hb : R b blank) :
    Shows R (drawCells cells (settle 0 (t.row + 1 : Nat)).1) (settle 0 (t.row + 1 : Nat)).2
      (t.newline b) := by
  have hrow := t.rowLt
  by_cases hr : t.row + 1 < 25
  · obtain ⟨hcells, hrow', hcol'⟩ := t.newline_of_lt b hr
    have hset := settle_on (x := 0) (by decide) hr
    rw [show settle 0 (t.row + 1 : Nat) = settle (0 : Nat) (t.row + 1 : Nat) from rfl, hset]
    exact ⟨by rw [hrow', hcol'], by rw [hcells]; exact h⟩
  · obtain ⟨hcells, hrow', hcol'⟩ := t.newline_of_last b hr
    have heq : t.row = 24 := by omega
    rw [heq, show settle 0 ((24 + 1 : Nat) : Int) = (scroll, 1920) from settle_below]
    refine ⟨by rw [hrow', hcol', heq], fun r c hr' hc => ?_⟩
    simp only [hcells, drawCells_scroll]
    by_cases hlast : r + 1 < 25
    · rw [if_pos hlast, if_pos (by omega)]
      have hmove := h (r + 1) c hlast hc
      rwa [show ((r + 1) * 80 + c : Nat) = ((r * 80 + c : Nat) : Int) + 80 by omega] at hmove
    · rw [if_neg hlast, if_neg (by omega), if_pos (by omega)]
      exact hb

theorem ShowsCells.goto (h : ShowsCells R cells t.cells) {b : α} (hb : R b blank) {x : Nat}
    (hx : x ≤ 80) :
    Shows R (drawCells cells (settle x t.row).1) (settle x t.row).2 (t.goto b x) := by
  cases Nat.lt_or_eq_of_le hx with
  | inl hlt =>
    rw [t.goto_of_lt b hlt, settle_on hlt t.rowLt]
    exact ⟨rfl, h⟩
  | inr heq =>
    obtain rfl := heq
    rw [t.goto_of_full b (Nat.lt_irrefl 80)]
    exact h.newline hb

/-- A backspace, across the left edge as well. -/
theorem Shows.back (h : Shows R cells current t) {b : α} (hb : R b blank) (hne : current ≠ 0) :
    Shows R (drawCells (drawCells cells [.put (current - 1) blank])
      (settle ((t.col : Int) - 1) t.row).1) (settle ((t.col : Int) - 1) t.row).2
      (t.backspace b) := by
  have hrow := t.rowLt
  have hcol := t.colLt
  have hcur := h.cursor
  rw [Screen.backspace]
  by_cases hc0 : 0 < t.col
  · have hx : (t.col : Int) - 1 = (t.col - 1 : Nat) := by omega
    have hcell : (current : Int) - 1 = (t.row * 80 + (t.col - 1) : Nat) := by omega
    rw [if_pos hc0, hx, settle_on (by omega) hrow, hcell]
    exact ⟨rfl, h.cells.set _ (by omega) hb⟩
  · have hx : (t.col : Int) - 1 = -1 := by omega
    have hy : (t.row : Int) - 1 = (t.row - 1 : Nat) := by omega
    have hset : settle 79 ((t.row - 1 : Nat) : Int) = ([], (t.row - 1) * 80 + 79) :=
      settle_on (x := 79) (by decide) (by omega)
    have hcell : (current : Int) - 1 = ((t.row - 1) * 80 + (80 - 1) : Nat) := by omega
    rw [if_neg hc0, if_pos (by omega), hx, settle_left, hy, hset, hcell]
    exact ⟨rfl, h.cells.set _ (by decide) hb⟩

/-- One character. -/
theorem Shows.put (h : Shows R cells current t) {color c : UInt8} {a b : α} (hb : R b blank)
    (ha : Printable c → R a (cellOf color c)) (hback : c = 8 → current ≠ 0) :
    Shows R (drawCells cells (advance color c current).1) (advance color c current).2
      (t.put b a c) := by
  have hrow := t.rowLt
  have hcol := t.colLt
  have hcur := h.cursor
  have hx : current % 80 = t.col := by omega
  have hy : current / 80 = t.row := by omega
  rw [advance_settle, drawCells_append]
  simp only [place, VGA_X, VGA_Y, VGA_WIDTH, hx, hy, Screen.put]
  by_cases h10 : c = 10
  · simp only [h10, if_true]
    exact h.cells.newline hb
  simp only [h10, if_false]
  by_cases h13 : c = 13
  · simp only [h13, if_true]
    have hgo := h.cells.goto hb (x := 0) (by decide)
    rwa [t.goto_of_lt b (by decide)] at hgo
  simp only [h13, if_false]
  by_cases h9 : c = 9
  · simp only [h9, if_true]
    have htab : ((t.col : Int) + 8) / 8 * 8 = ((t.col / 8 + 1) * 8 : Nat) := by omega
    rw [htab]
    exact h.cells.goto hb (by omega)
  simp only [h9, if_false]
  by_cases h8 : c = 8
  · simp only [h8, if_true]
    exact h.back hb (hback h8)
  simp only [h8, if_false]
  have hstore := (h.cells.set t.row hcol (ha ⟨h8, h9, h10, h13⟩)).goto (t := t.set t.row t.col a)
    hb (x := t.col + 1) (by omega)
  rwa [hcur]

/-- `char` is signed. -/
theorem toInt8_cases (c : UInt8) :
    c.toInt8.toInt = if c.toNat < 128 then (c.toNat : Int) else c.toNat - 256 := by
  have h : c.toInt8.toInt = c.toBitVec.toInt := rfl
  have hlt := c.toNat_lt
  rw [h, BitVec.toInt_eq_toNat_cond]
  simp only [UInt8.toNat_toBitVec]
  split_ifs <;> omega

theorem cellOf_eq (color c : UInt8) : (cellOf color c : Int) =
    (color.toNat * 256 + if c.toNat < 128 then (c.toNat : Int) else c.toNat - 256) % 65536 := by
  rw [cellOf, toInt8_cases]
  exact Int.toNat_of_nonneg (Int.emod_nonneg _ (by decide))

/-- The character of a cell. -/
def charOf (cell : Nat) : UInt8 := UInt8.ofNat cell

theorem charOf_cellOf (color c : UInt8) : charOf (cellOf color c) = c := by
  have hcell := cellOf_eq color c
  have hlt := c.toNat_lt
  refine UInt8.toNat_inj.mp ?_
  rw [charOf, UInt8.toNat_ofNat']
  split_ifs at hcell <;> omega

/-- The terminal that shows what is on the screen. -/
def screenOf (f : Nat → α) (s : Console) (h : s.vga.cursor < 2000) : Screen α 25 80 where
  cells := fun r c => f (s.vga.cells (r * 80 + c : Nat))
  row := s.vga.cursor / 80
  col := s.vga.cursor % 80
  rowLt := by omega
  colLt := Nat.mod_lt _ (by decide)

theorem shows_screenOf {f : Nat → α} (hf : ∀ cell, R (f cell) cell) (s : Console)
    (h : s.vga.cursor < 2000) : Shows R s.vga.cells s.vga.cursor (screenOf f s h) :=
  ⟨(Nat.div_add_mod' s.vga.cursor 80).symm, fun _ _ _ _ => hf _⟩

theorem Shows.char {s : Console} (h : Shows R s.vga.cells s.vga.cursor t) {c : UInt8} {a b : α}
    (hb : R b blank) (ha : Printable c → R a (cellOf s.tty.color c))
    (hback : c = 8 → s.vga.cursor ≠ 0) :
    Shows R (ttyWritechar s c).vga.cells (ttyWritechar s c).vga.cursor (t.put b a c) := by
  rw [ttyWritechar_cells, ttyWritechar_cursor]
  exact h.put hb ha hback

/-- No backspace is written at the first cell. -/
def KeepsFront (s : Console) (data : List UInt8) : Prop :=
  ∀ pre post, data = pre ++ 8 :: post → (ttyWrite s pre).vga.cursor ≠ 0

theorem KeepsFront.tail {s : Console} {c : UInt8} {data : List UInt8}
    (h : KeepsFront s (c :: data)) : KeepsFront (ttyWritechar s c) data :=
  fun pre post heq => h (c :: pre) post (congrArg (c :: ·) heq)

theorem KeepsFront.head {s : Console} {c : UInt8} {data : List UInt8}
    (h : KeepsFront s (c :: data)) (h8 : c = 8) : s.vga.cursor ≠ 0 :=
  h [] data (congrArg (· :: data) h8)

theorem KeepsFront.nil (s : Console) : KeepsFront s [] := fun _ _ h => absurd h (by simp)

theorem KeepsFront.cons {s : Console} {c : UInt8} {data : List UInt8}
    (hc : c = 8 → s.vga.cursor ≠ 0) (h : KeepsFront (ttyWritechar s c) data) :
    KeepsFront s (c :: data) := by
  intro pre post heq
  cases pre with
  | nil => exact hc (List.cons.inj heq).1
  | cons d pre =>
    obtain ⟨rfl, htail⟩ := List.cons.inj heq
    exact h pre post htail

/-- A text of any length. -/
theorem Shows.write {data : List UInt8} {s : Console} {t : Screen α 25 80} {b : α}
    {v : UInt8 → α} (h : Shows R s.vga.cells s.vga.cursor t) (hb : R b blank)
    (hval : ∀ c ∈ data, R (v c) (cellOf s.tty.color c)) (hfront : KeepsFront s data) :
    Shows R (ttyWrite s data).vga.cells (ttyWrite s data).vga.cursor (t.write b v data) := by
  induction data generalizing s t with
  | nil => exact h
  | cons c data ih =>
    obtain ⟨hc, hval⟩ := List.forall_mem_cons.mp hval
    have hcolor := (ttyWritechar_line s c).color
    exact ih (h.char hb (fun _ => hc) hfront.head) (by rwa [hcolor]) hfront.tail

theorem written_onScreen {data : List UInt8} {s : Console} (h : s.vga.cursor < 2000)
    (hfront : KeepsFront s data) (pre : List UInt8) (c : UInt8) (post : List UInt8)
    (heq : data = pre ++ c :: post) :
    ∀ op ∈ written (ttyWrite s pre) (.char c), OnScreen op.cell := by
  have hpre : KeepsFront s pre := fun p q hp => hfront p (q ++ c :: post) (by
    rw [heq, hp, List.append_assoc]
    rfl)
  have hshow := (shows_screenOf (R := fun a cell => a = charOf cell) (fun _ => rfl) s h).write
    (v := id) rfl (fun _ _ => (charOf_cellOf _ _).symm) hpre
  exact advance_onScreen hshow.lt fun h8 => hfront pre post (h8 ▸ heq)

/-- What stands on the screen after `tty_write`, and the cursor, are those of the terminal; nothing
else is written. -/
theorem ttyWrite_refines {s : Console} {data : List UInt8} (h : s.vga.cursor < 2000)
    (hfront : KeepsFront s data) :
    Shows (fun a cell => a = charOf cell) (ttyWrite s data).vga.cells (ttyWrite s data).vga.cursor
        ((screenOf charOf s h).write 32 id data) ∧
      (ttyWrite s data).vga.cursor < 2000 ∧
      ∀ pre c post, data = pre ++ c :: post →
        ∀ op ∈ written (ttyWrite s pre) (.char c), OnScreen op.cell := by
  have hshow := (shows_screenOf (R := fun a cell => a = charOf cell) (fun _ => rfl) s h).write
    (b := 32) (v := id) rfl (fun _ _ => (charOf_cellOf _ _).symm) hfront
  exact ⟨hshow, hshow.lt, written_onScreen h hfront⟩

/-- A character, a backspace and a new line. -/
theorem ttyWrite_refines_line :
    Shows (fun a cell => a = charOf cell) (ttyWrite blankConsole [104, 8, 10]).vga.cells
        (ttyWrite blankConsole [104, 8, 10]).vga.cursor
        ((screenOf charOf blankConsole (by decide)).write 32 id [104, 8, 10]) ∧
      (ttyWrite blankConsole [104, 8, 10]).vga.cursor < 2000 ∧
      ∀ pre c post, [104, 8, 10] = pre ++ c :: post →
        ∀ op ∈ written (ttyWrite blankConsole pre) (.char c), OnScreen op.cell :=
  ttyWrite_refines (by decide) (.cons (by decide) (.cons (by decide +kernel) (.cons (by decide)
    (.nil _))))

end Foos.Terminal
