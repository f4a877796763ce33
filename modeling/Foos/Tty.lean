import Mathlib.Logic.Function.Basic
import Mathlib.Data.List.Basic
import Mathlib.Tactic.SplitIfs

/-! The terminal of `kernel/dev/tty.c`: the video controller and the cells of the screen,
`struct tty`, and the functions that write. The kernel has one terminal, so that `ptty` is
`tty_current()`. -/
namespace Foos.Terminal

inductive Port where
  | VGA_CMD
  | VGA_DATA

/-- The index register says which register the data port reaches. The cells are 16-bit words,
counted from `VGA_BASE`. -/
structure Vga where
  index : UInt8
  regs : UInt8 → UInt8
  cells : Int → Nat

def outb (v : Vga) : Port → UInt8 → Vga
  | .VGA_CMD, val => { v with index := val }
  | .VGA_DATA, val => { v with regs := Function.update v.regs v.index val }

def inb (v : Vga) : Port → UInt8
  | .VGA_CMD => v.index
  | .VGA_DATA => v.regs v.index

structure Kbd where
  ctrl : Bool
  shift : Bool
  alt : Bool
  caps : Bool
  irq : Bool
  special : Bool
  flush : Bool

/-- `struct tty`. The pointers are counted from `buf`; `tmp` is NULL until the first line is
complete, and not read before. -/
structure Tty where
  color : UInt8
  cursor : UInt8
  last : UInt8
  buf : Int → UInt8
  bufptr : Int
  tmp : Int
  kbd : Kbd

/-- The controller and `*current_tty`. -/
structure Console where
  vga : Vga
  tty : Tty

def VGA_WIDTH : Nat := 80
def VGA_HEIGHT : Nat := 25
def VGA_X (offset : Nat) : Nat := offset % VGA_WIDTH
def VGA_Y (offset : Nat) : Nat := offset / VGA_WIDTH
def VGA_COORD (x y : Int) : Int := y * VGA_WIDTH + x

/-- The cursor that the controller shows. -/
def Vga.cursor (v : Vga) : Nat := (v.regs 0xE).toNat * 256 + (v.regs 0xF).toNat

def ttyGetCursor (v : Vga) : Nat × Vga :=
  let v := outb v .VGA_CMD 0xE
  let ret := (inb v .VGA_DATA).toNat * 256
  let v := outb v .VGA_CMD 0xF
  (ret + (inb v .VGA_DATA).toNat, v)

def ttyUpdateCursor (s : Console) (offset : Nat) : Console :=
  let v := outb s.vga .VGA_CMD 0xF
  let v := outb v .VGA_DATA (UInt8.ofNat offset)
  let v := outb v .VGA_CMD 0xE
  let v := outb v .VGA_DATA (UInt8.ofNat (offset / 256))
  ⟨v, { s.tty with cursor := UInt8.ofNat offset }⟩

/-- A write to a cell: of a value, or of what another cell holds. -/
inductive CellOp where
  | put (i : Int) (val : Nat)
  | copy (i src : Int)

def CellOp.cell : CellOp → Int
  | put i _ => i
  | copy i _ => i

def CellOp.run (cells : Int → Nat) : CellOp → Int → Nat
  | put i val => Function.update cells i val
  | copy i src => Function.update cells i (cells src)

def drawCells (cells : Int → Nat) (ops : List CellOp) : Int → Nat := ops.foldl CellOp.run cells

def draw (v : Vga) (ops : List CellOp) : Vga := { v with cells := drawCells v.cells ops }

/-- A space, gray on black. -/
def blank : Nat := 0x0720

/-- `(ptty->color << 8)+c` as a 16-bit word; `char` is signed. -/
def cellOf (color c : UInt8) : Nat := ((color.toNat * 256 + c.toInt8.toInt) % 65536 : Int).toNat

/-- `memcpy` of line `i+1` onto line `i`. -/
def shiftLine (i : Nat) : List CellOp :=
  (List.range VGA_WIDTH).map fun j : Nat =>
    .copy (i * VGA_WIDTH + j : Nat) ((i + 1) * VGA_WIDTH + j : Nat)

def cleanLine (y : Nat) : List CellOp :=
  (List.range VGA_WIDTH).map fun j : Nat => .put (y * VGA_WIDTH + j : Nat) blank

def scroll : List CellOp :=
  (List.range (VGA_HEIGHT - 1)).flatMap shiftLine ++ cleanLine (VGA_HEIGHT - 1)

/-- The `switch` of `tty_writechar`: the cells written, and the position behind the
character. -/
def place (color c : UInt8) (current : Nat) : List CellOp × Int × Int :=
  let x : Int := VGA_X current
  let y : Int := VGA_Y current
  if c = 10 then ([], 0, y + 1)  -- '\n' falls through to '\r'
  else if c = 13 then ([], 0, y)
  else if c = 9 then ([], (x + 8) / 8 * 8, y)  -- (x+8) & ~(8-1)
  else if c = 8 then ([.put (current - 1) blank], x - 1, y)
  else ([.put current (cellOf color c)], x + 1, y)

/-- To the next line if the line is full, and back if it is completely backspaced. -/
def wrap (x y : Int) : Int × Int :=
  let (x, y) := if 80 ≤ x then (0, y + 1) else (x, y)
  if x < 0 then (x + 80, y - 1) else (x, y)

/-- What `tty_writechar` writes and where it moves the cursor. -/
def advance (color c : UInt8) (current : Nat) : List CellOp × Nat :=
  let (ops, x, y) := place color c current
  let (x, y) := wrap x y
  let (ops, y) := if VGA_HEIGHT ≤ y then (ops ++ scroll, (VGA_HEIGHT - 1 : Int)) else (ops, y)
  (ops, (VGA_COORD x y % 65536).toNat)

def setLast (s : Console) (c : UInt8) : Console :=
  if c ≠ 8 then { s with tty := { s.tty with last := c } } else s

def ttyWritechar (s : Console) (c : UInt8) : Console :=
  let (current, v) := ttyGetCursor s.vga
  let (ops, offset) := advance s.tty.color c current
  setLast (ttyUpdateCursor ⟨draw v ops, s.tty⟩ offset) c

def ttyWrite (s : Console) (data : List UInt8) : Console := data.foldl ttyWritechar s

/-- `while((ptr--)>VGA_BASE)` runs down over all cells. -/
def clearCells : List CellOp :=
  (List.range (VGA_WIDTH * VGA_HEIGHT)).reverse.map fun i : Nat => .put i blank

def ttyClear (s : Console) : Console :=
  ttyUpdateCursor { s with vga := draw s.vga clearCells } 0

@[simp] theorem draw_cursor (v : Vga) (ops : List CellOp) : (draw v ops).cursor = v.cursor := rfl

@[simp] theorem draw_cells (v : Vga) (ops : List CellOp) :
    (draw v ops).cells = drawCells v.cells ops := rfl

theorem ttyUpdateCursor_cursor (s : Console) {offset : Nat} (h : offset < 65536) :
    (ttyUpdateCursor s offset).vga.cursor = offset := by
  have hne : (0xF : UInt8) ≠ 0xE := by decide
  simp only [Vga.cursor, ttyUpdateCursor, outb, Function.update_self, Function.update_of_ne hne,
    UInt8.toNat_ofNat']
  omega

@[simp] theorem ttyUpdateCursor_cells (s : Console) (offset : Nat) :
    (ttyUpdateCursor s offset).vga.cells = s.vga.cells := rfl

@[simp] theorem setLast_vga (s : Console) (c : UInt8) : (setLast s c).vga = s.vga := by
  unfold setLast
  split <;> rfl

/-- The line buffer, the keyboard state and the color are not the screen's. -/
structure SameLine (t t' : Tty) : Prop where
  color : t'.color = t.color
  buf : t'.buf = t.buf
  bufptr : t'.bufptr = t.bufptr
  tmp : t'.tmp = t.tmp
  kbd : t'.kbd = t.kbd

theorem ttyWritechar_line (s : Console) (c : UInt8) : SameLine s.tty (ttyWritechar s c).tty := by
  simp only [ttyWritechar, setLast]
  split <;> exact ⟨rfl, rfl, rfl, rfl, rfl⟩

theorem ttyWritechar_vga (s : Console) (c : UInt8) : (ttyWritechar s c).vga =
    (ttyUpdateCursor ⟨draw (ttyGetCursor s.vga).2 (advance s.tty.color c s.vga.cursor).1, s.tty⟩
      (advance s.tty.color c s.vga.cursor).2).vga :=
  setLast_vga _ _

theorem advance_lt (color c : UInt8) (current : Nat) : (advance color c current).2 < 65536 := by
  simp only [advance]
  omega

theorem ttyWritechar_cursor (s : Console) (c : UInt8) :
    (ttyWritechar s c).vga.cursor = (advance s.tty.color c s.vga.cursor).2 := by
  rw [ttyWritechar_vga]
  exact ttyUpdateCursor_cursor _ (advance_lt _ _ _)

theorem ttyWritechar_cells (s : Console) (c : UInt8) : (ttyWritechar s c).vga.cells =
    drawCells s.vga.cells (advance s.tty.color c s.vga.cursor).1 := by
  rw [ttyWritechar_vga]
  rfl

end Foos.Terminal
