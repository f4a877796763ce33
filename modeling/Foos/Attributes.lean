import Foos.CharPlane
import Foos.TtyDevice

/-! The color of every cell of the screen: the one that was set when its character was stored, or
gray on black where it was blanked last. -/
namespace Foos.Terminal
open Transition TextScreen

/-- What is asked of the terminal: a character of a `tty_write`, `TTY_CLEAR` or `TTY_SETCOL`. -/
inductive Request where
  | char (c : UInt8)
  | clear
  | setCol (color : UInt8)

def request (s : Console) : Request → Console
  | .char c => ttyWritechar s c
  | .clear => ttyClear s
  | .setCol color => { s with tty := { s.tty with color := color } }

/-- The color of a cell. -/
def attrOf (cell : Nat) : UInt8 := UInt8.ofNat (cell / 256)

/-- The terminal, and beside it the color of each cell that was touched, moved with the cell when
the screen scrolls. -/
structure Painted where
  con : Console
  marks : Screen (Option UInt8) 25 80

def paint (p : Painted) (a : Request) : Painted where
  con := request p.con a
  marks := match a with
    | .char c => p.marks.put (some 7) (some p.con.tty.color) c
    | .clear => p.marks.clear (some 7)
    | .setCol _ => p.marks

def Paints (p : Painted) (a : Request) (q : Painted) : Prop := q = paint p a

/-- No cell was touched yet. -/
def untouched (s : Console) (h : s.vga.cursor < 2000) : Painted := ⟨s, screenOf (fun _ => none) s h⟩

/-- A cell that was touched has this color. -/
def HasColor (mark : Option UInt8) (cell : Nat) : Prop := ∀ color, mark = some color →
  attrOf cell = color

/-- Every cell that was touched has the color it should have. -/
def Attributed (p : Painted) : Prop := ShowsCells HasColor p.con.vga.cells p.marks.cells

/-- A byte that is no ASCII character is stored. -/
def StoresHigh (a : Request) : Prop := ∃ c, a = .char c ∧ 128 ≤ c.toNat

theorem attrOf_cellOf (color c : UInt8) :
    attrOf (cellOf color c) = if c.toNat < 128 then color else color - 1 := by
  have hcell := cellOf_eq color c
  have hlt := c.toNat_lt
  have hcolor := color.toNat_lt
  refine UInt8.toNat_inj.mp ?_
  rw [attrOf, UInt8.toNat_ofNat']
  split
  case isTrue h =>
    rw [if_pos h] at hcell
    omega
  case isFalse h =>
    rw [if_neg h] at hcell
    have hone : (1 : UInt8).toNat = 1 := rfl
    rw [UInt8.toNat_sub, hone]
    omega

theorem drawCells_puts (cells : Int → Nat) (l : List Nat) (val : Nat) (i : Int) :
    drawCells cells (l.map fun j : Nat => .put j val) i =
      if ∃ j ∈ l, i = (j : Nat) then val else cells i := by
  induction l generalizing cells with
  | nil => simp [drawCells]
  | cons j l ih =>
    have hfirst : drawCells cells ((j :: l).map fun j : Nat => .put j val) i =
        drawCells (drawCells cells [.put j val]) (l.map fun j : Nat => .put j val) i := rfl
    rw [hfirst, ih, drawCells_cell]
    by_cases hl : ∃ k ∈ l, i = (k : Nat)
    · obtain ⟨k, hk, hi⟩ := hl
      rw [if_pos ⟨k, hk, hi⟩, if_pos ⟨k, List.mem_cons_of_mem j hk, hi⟩]
    · rw [if_neg hl]
      by_cases hj : i = j
      · rw [if_pos hj, if_pos ⟨j, List.mem_cons_self .., hj⟩]
      · rw [if_neg hj, if_neg]
        rintro ⟨k, hk, hi⟩
        cases List.mem_cons.mp hk with
        | inl heq =>
          obtain rfl := heq
          exact hj hi
        | inr hk => exact hl ⟨k, hk, hi⟩

theorem ttyClear_cells (s : Console) {i : Int} (h : OnScreen i) :
    (ttyClear s).vga.cells i = blank := by
  obtain ⟨h0, h2000⟩ := h
  rw [ttyClear, ttyUpdateCursor_cells, draw_cells, clearCells, drawCells_puts]
  refine if_pos ⟨i.toNat, ?_, by omega⟩
  simp only [List.mem_reverse, List.mem_range, VGA_WIDTH, VGA_HEIGHT]
  omega

theorem ttyClear_cursor (s : Console) : (ttyClear s).vga.cursor = 0 :=
  ttyUpdateCursor_cursor _ (by decide)

theorem shows_clear {α : Type} {R : α → Nat → Prop} {b : α} (hb : R b blank) (s : Console)
    (t : Screen α 25 80) : Shows R (ttyClear s).vga.cells (ttyClear s).vga.cursor (t.clear b) := by
  refine ⟨ttyClear_cursor s, fun r c hr hc => ?_⟩
  rw [ttyClear_cells s ⟨by omega, by omega⟩]
  exact hb

/-- The cursor is at the same place, and the colors are right. -/
def Tracked (p : Painted) : Prop :=
  Shows HasColor p.con.vga.cells p.con.vga.cursor p.marks

theorem hasColor_blank : HasColor (some 7) blank := by
  rintro color hcolor
  obtain rfl := Option.some.inj hcolor
  decide

theorem printable_of_high {c : UInt8} (h : 128 ≤ c.toNat) : Printable c := by
  refine ⟨?_, ?_, ?_, ?_⟩ <;> rintro rfl <;> exact absurd h (by decide)

/-- A color that is right for a character below 128 is kept. -/
theorem Tracked.low {p : Painted} (h : Tracked p) {a : Request}
    (hback : ¬ (a = .char 8 ∧ p.con.vga.cursor = 0)) (hlow : ¬ StoresHigh a) :
    Tracked (paint p a) := by
  cases a with
  | char c =>
    refine Shows.char h hasColor_blank (fun _ => ?_) fun h8 h0 => hback ⟨h8 ▸ rfl, h0⟩
    rintro color hcolor
    obtain rfl := Option.some.inj hcolor
    rw [attrOf_cellOf, if_pos (Nat.lt_of_not_le fun hc => hlow ⟨c, rfl, hc⟩)]
  | clear => exact shows_clear hasColor_blank p.con p.marks
  | setCol color => exact h

/-- Where a character is stored its cell can be seen afterwards. -/
theorem stored_cell {p : Painted} (h : Tracked p) {c : UInt8} (hc : Printable c) :
    (ttyWritechar p.con c).vga.cells
        (p.marks.landing.1 * 80 + p.marks.landing.2 : Nat) = cellOf p.con.tty.color c := by
  obtain ⟨h8, h9, h10, h13⟩ := hc
  let t : Screen (Option Nat) 25 80 := { p.marks with cells := fun _ _ => none }
  have hshow : Shows (fun mark cell => ∀ n, mark = some n → cell = n) p.con.vga.cells
      p.con.vga.cursor t := ⟨h.cursor, nofun⟩
  have hput := (hshow.char (a := some (cellOf p.con.tty.color c)) (b := some blank)
    (fun n hn => Option.some.inj hn) (fun _ n hn => Option.some.inj hn) fun h => absurd h h8).cells
  obtain ⟨hr, hcol⟩ := t.landing_lt
  refine hput t.landing.1 t.landing.2 hr hcol _ ?_
  rw [Screen.put, if_neg h10, if_neg h13, if_neg h9, if_neg h8]
  exact t.store_landing _ _ (by decide)

/-- A request keeps the colors right exactly when it stores no byte from 128 on. -/
theorem Tracked.iff {p : Painted} (h : Tracked p) {a : Request}
    (hback : ¬ (a = .char 8 ∧ p.con.vga.cursor = 0)) :
    Attributed (paint p a) ↔ ¬ StoresHigh a := by
  refine ⟨?_, fun hlow => (h.low hback hlow).cells⟩
  rintro hattr ⟨c, rfl, hc⟩
  have hprint := printable_of_high hc
  obtain ⟨hr, hcol⟩ := p.marks.landing_lt
  have hmark : (p.marks.put (some 7) (some p.con.tty.color) c).cells p.marks.landing.1
      p.marks.landing.2 = some p.con.tty.color := by
    obtain ⟨h8, h9, h10, h13⟩ := hprint
    rw [Screen.put, if_neg h10, if_neg h13, if_neg h9, if_neg h8]
    exact p.marks.store_landing _ _ (by decide)
  have hcolor := hattr _ _ hr hcol _ hmark
  have hcell : (paint p (.char c)).con.vga.cells
      (p.marks.landing.1 * 80 + p.marks.landing.2 : Nat) = _ := stored_cell h hprint
  rw [hcell, attrOf_cellOf, if_neg (by omega)] at hcolor
  have hsub := congrArg UInt8.toNat hcolor
  have hone : (1 : UInt8).toNat = 1 := rfl
  rw [UInt8.toNat_sub, hone] at hsub
  have hlt := p.con.tty.color.toNat_lt
  omega

theorem untouched_tracked (s : Console) (h : s.vga.cursor < 2000) : Tracked (untouched s h) :=
  shows_screenOf (R := HasColor) (f := fun _ => none) (fun _ => nofun) s h

/-- In a run of any requests, in which no backspace is written at the first cell, the colors of all
cells touched are right after every step exactly when no byte from 128 on is ever stored. -/
theorem run_attributed_iff {s : Console} {h : s.vga.cursor < 2000} {q : Painted}
    {tr : List (Painted × Request × Painted)} (hrun : Run Paints (untouched s h) tr q)
    (hfront : ∀ e ∈ tr, ¬ (e.2.1 = .char 8 ∧ e.1.con.vga.cursor = 0)) :
    (∀ e ∈ tr, Attributed e.2.2) ↔ ∀ e ∈ tr, ¬ StoresHigh e.2.1 := by
  have hstep : ∀ (p : Painted) (a : Request) (q : Painted), Tracked p →
      ¬ (a = .char 8 ∧ p.con.vga.cursor = 0) ∧ ¬ StoresHigh a → Paints p a q → Tracked q := by
    rintro p a q hp ⟨hback, hlow⟩ rfl
    exact hp.low hback hlow
  have hstep' : ∀ (p : Painted) (a : Request) (q : Painted), Tracked p →
      ¬ (a = .char 8 ∧ p.con.vga.cursor = 0) ∧ Attributed (paint p a) → Paints p a q → Tracked q :=
    fun p a q hp hq => hstep p a q hp ⟨hq.1, (hp.iff hq.1).mp hq.2⟩
  have hnext : ∀ e ∈ tr, e.2.2 = paint e.1 e.2.1 := by
    intro e he
    obtain ⟨-, -, -, -, hst⟩ := hrun.at_step he
    exact hst
  have hstart := untouched_tracked s h
  constructor
  · intro hall e he
    have hall' : ∀ e ∈ tr, ¬ (e.2.1 = .char 8 ∧ e.1.con.vga.cursor = 0) ∧
        Attributed (paint e.1 e.2.1) := fun e he => ⟨hfront e he, hnext e he ▸ hall e he⟩
    have hp := (hrun.invariant_at hstep' hstart hall' he).1
    exact (hp.iff (hfront e he)).mp (hall' e he).2
  · intro hall e he
    have hall' : ∀ e ∈ tr, ¬ (e.2.1 = .char 8 ∧ e.1.con.vga.cursor = 0) ∧
        ¬ StoresHigh e.2.1 := fun e he => ⟨hfront e he, hall e he⟩
    have hp := (hrun.invariant_at hstep hstart hall' he).1
    rw [hnext e he]
    exact (hp.iff (hfront e he)).mpr (hall e he)

theorem onConsole_con (no : Nat) (f : Console → Console) (w : World Driver) :
    ∃ t, onConsole no f w = .ret () t ∧ (t.driver no).con = f (w.driver no).con := by
  refine ⟨_, rfl, ?_⟩
  show (Function.update w.driver no _ no).con = _
  rw [Function.update_self]

section
variable {no : Nat} {w : World Driver} (hopen : (w.devs no).data ≠ 0)
include hopen

/-- The device calls of an open terminal are such requests. -/
theorem ttydevIoctl_clear (args : Nat) : ∃ t, ttydevIoctl no TTY_CLEAR args w = .ret 0 t ∧
    (t.driver no).con = request (w.driver no).con .clear := by
  obtain ⟨t, hrun, hcon⟩ := onConsole_con no ttyClear w
  refine ⟨t, ?_, hcon⟩
  simp only [ttydevIoctl, Program.read_bind_run, if_neg hopen, if_true]
  exact Program.bind_ret hrun

theorem ttydevIoctl_setCol (args : Nat) : ∃ t, ttydevIoctl no TTY_SETCOL args w = .ret 0 t ∧
    (t.driver no).con = request (w.driver no).con (.setCol (w.mem args)) := by
  have hrequest : TTY_SETCOL ≠ TTY_CLEAR ∧ TTY_SETCOL ≠ TTY_SETCSR ∧ TTY_SETCOL ≠ TTY_GETCSR := by
    decide
  obtain ⟨t, hrun, hcon⟩ :=
    onConsole_con no (fun s => { s with tty := { s.tty with color := w.mem args } }) w
  refine ⟨t, ?_, hcon⟩
  simp only [ttydevIoctl, Program.read_bind_run, if_neg hopen, if_neg hrequest.1,
    if_neg hrequest.2.1, if_neg hrequest.2.2, if_true]
  exact (ofMem_bind_run _ _ w).trans (Program.bind_ret hrun)

theorem ttydevWrite_chars (buf len : Nat) : ∃ t, ttydevWrite no buf len w = .ret len t ∧
    (t.driver no).con = (((List.range len).map fun i => w.mem (buf + i)).map Request.char).foldl
      request (w.driver no).con := by
  obtain ⟨t, hrun, hcon⟩ :=
    onConsole_con no (fun s => ttyWrite s ((List.range len).map fun i => w.mem (buf + i))) w
  refine ⟨t, ?_, ?_⟩
  · simp only [ttydevWrite, Program.read_bind_run, ofMem_bind_run, if_neg hopen]
    exact Program.bind_ret hrun
  · rw [hcon, List.foldl_map]
    rfl

end

/-- The requests on a blank screen. -/
def paintAll (as : List Request) : List (Painted × Request × Painted) :=
  trace paint (untouched blankConsole (by decide)) as

theorem paintAll_run (as : List Request) : Run Paints (untouched blankConsole (by decide))
    (paintAll as) (as.foldl paint (untouched blankConsole (by decide))) :=
  Run.of_trace as fun _ _ => rfl

theorem run_attributed_iff_red :
    (∀ e ∈ paintAll [.setCol 4, .char 104, .clear], Attributed e.2.2) ↔
      ∀ e ∈ paintAll [.setCol 4, .char 104, .clear], ¬ StoresHigh e.2.1 := by
  refine run_attributed_iff (paintAll_run _) fun e he => ?_
  simp only [paintAll, trace, List.mem_cons, List.not_mem_nil, or_false] at he
  rcases he with rfl | rfl | rfl <;> rintro ⟨h, -⟩ <;> cases h

/-- The byte 0x80 is stored with color 4, and its cell gets color 3. -/
theorem run_attributed_fails : ¬ ∀ (tr : List (Painted × Request × Painted)) (q : Painted),
    Run Paints (untouched blankConsole (by decide)) tr q →
    (∀ e ∈ tr, ¬ (e.2.1 = .char 8 ∧ e.1.con.vga.cursor = 0)) → ∀ e ∈ tr, Attributed e.2.2 := by
  intro hclaim
  have hattr := hclaim _ _ (paintAll_run [.setCol 4, .char 0x80]) (fun e he => by
    simp only [paintAll, trace, List.mem_cons, List.not_mem_nil, or_false] at he
    rcases he with rfl | rfl <;> rintro ⟨h, -⟩ <;> cases h) _ (List.mem_cons_of_mem _
    (List.mem_singleton_self _))
  have hcolor := hattr 0 0 (by decide) (by decide) 4 rfl
  exact absurd hcolor (by decide +kernel)

end Foos.Terminal
