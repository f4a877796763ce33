import Foos.Screen
import Foos.Typing

/-! What the user sees is what is read: while `tty_read` waits, the echo of the line buffer on the
screen. -/
namespace Foos.Terminal
open Transition

instance (c : UInt8) : Decidable (Printable c) := inferInstanceAs (Decidable (_ ∧ _))

theorem decode_shift_caps (kbd : Kbd) (code : Nat) :
    decode kbd code = decode ⟨false, kbd.shift, false, kbd.caps, false, false, false⟩ code := rfl

theorem tables_printable : ∀ code < 59, keyOf (UInt8.ofNat code) = .char → ∀ shift caps : Bool,
    Printable (decode ⟨false, shift, false, caps, false, false, false⟩ code) := by
  decide +kernel

/-- The control characters stand in the tables only where other keys are handled. -/
theorem decode_printable {kbd : Kbd} {scancode : UInt8} (hk : keyOf scancode = .char)
    (h : scancode ≤ 0x3A) : Printable (decode kbd scancode.toNat) := by
  have hlt : scancode.toNat < 59 := Nat.lt_succ_of_le (UInt8.le_iff_toNat_le.mp h)
  have hcode : UInt8.ofNat scancode.toNat = scancode := UInt8.ofNat_toNat
  rw [decode_shift_caps]
  exact tables_printable _ hlt (hcode.symm ▸ hk) _ _

/-- The echo of an interrupt scrolls the screen. -/
def scrolled (s : Session) : Move → Bool
  | .irq scancode =>
    match echoed s.con scancode with
    | none => false
    | some c => Scrolls s.con.tty.color c s.con.vga.cursor
  | .read => false

def scrolls (tr : List (Session × Move × Session)) : Nat := tr.countP fun e => scrolled e.1 e.2.1

/-- The line on the screen from the cell `start` on, after the text there was moved up by `n`
lines. -/
structure Shown (s : Console) (start : Int) (cells : Int → Nat) (n : Nat) : Prop where
  front : 0 ≤ start
  cursor : s.vga.cursor = start + s.tty.bufptr
  line : ∀ i, 0 ≤ i → i < s.tty.bufptr →
    s.vga.cells (start + i) = cellOf s.tty.color (s.tty.buf i)
  before : ∀ i, 0 ≤ i → i < start → s.vga.cells i = cells (i + 80 * n)

/-- `tty_read` waits for the line. -/
structure Waiting (s : Session) : Prop where
  reader : s.reader = .whileFlush
  flush : s.con.tty.kbd.flush = false

/-- The line started at the cell `c0`, and the screen scrolled `n` times since. -/
structure Echoing (s : Session) (c0 : Nat) (cells : Int → Nat) (n : Nat) : Prop
    extends Waiting s where
  shown : Shown s.con (c0 - 80 * n) cells n
  onScreen : s.con.vga.cursor < 2000
  ptr : s.con.tty.bufptr = s.pending.length

/-- The keys of a line that is not complete. -/
def Unfinished (s : Session) : Move → Prop
  | .irq scancode => Legal s (.irq scancode) ∧ keyOf scancode ≠ .enter
  | .read => True

instance (s : Session) (a : Move) : Decidable (Unfinished s a) :=
  match a with
  | .irq scancode => inferInstanceAs (Decidable (Legal s (.irq scancode) ∧ _))
  | .read => inferInstanceAs (Decidable True)

theorem Shown.setKbd {s : Console} {start : Int} {cells : Int → Nat} {n : Nat}
    (h : Shown s start cells n) (kbd : Kbd) : Shown (setKbd s kbd) start cells n :=
  ⟨h.front, h.cursor, h.line, h.before⟩

theorem appendChar_buf (t : Tty) (ch : UInt8) {i : Int} (h : i < t.bufptr + 1) :
    (appendChar t ch).buf i = if i = t.bufptr then ch else t.buf i := by
  simp only [appendChar]
  rw [Function.update_of_ne (by omega), Function.update_apply]

theorem eraseLast_buf (t : Tty) {i : Int} (h : i < t.bufptr - 1) :
    (eraseLast t).buf i = t.buf i := by
  simp only [eraseLast]
  rw [Function.update_of_ne (by omega)]

/-- A character is appended to the line on the screen and in the buffer. -/
theorem Shown.type {s : Console} {start : Int} {cells : Int → Nat} {n : Nat} {c : UInt8}
    (h : Shown s start cells n) (hc : Printable c) (hptr : 0 ≤ s.tty.bufptr)
    (hcursor : s.vga.cursor < 1999) : Shown (typeChar s c) start cells n := by
  have hadv := (advance_printable s.tty.color hc hcursor).1
  have hline := typeChar_line s c
  have hvga : (typeChar s c).vga = (ttyWritechar s c).vga := rfl
  have hcur := h.cursor
  refine ⟨h.front, ?_, ?_, ?_⟩
  · rw [hvga, ttyWritechar_cursor, hadv, hline.bufptr]
    simp only [appendChar]
    omega
  · intro i hi hlt
    rw [hline.bufptr] at hlt
    rw [hvga, ttyWritechar_cells, hadv, hline.color, hline.buf, appendChar_buf _ _ hlt,
      drawCells_cell]
    simp only [appendChar] at hlt ⊢
    by_cases hlast : i = s.tty.bufptr
    · rw [if_pos hlast, if_pos (by omega)]
    · rw [if_neg hlast, if_neg (by omega)]
      exact h.line i hi (by omega)
  · intro i hi hlt
    rw [hvga, ttyWritechar_cells, hadv, drawCells_cell, if_neg (by omega)]
    exact h.before i hi hlt

/-- At the last cell the line moves up with the text before it. -/
theorem Shown.typeLast {s : Console} {start : Int} {cells : Int → Nat} {n : Nat} {c : UInt8}
    (h : Shown s start cells n) (hc : Printable c) (hptr : 0 ≤ s.tty.bufptr)
    (hlen : s.tty.bufptr < 511) (hcursor : s.vga.cursor = 1999) :
    Shown (typeChar s c) (start - 80) cells (n + 1) := by
  have hadv := (advance_last s.tty.color hc).1
  have hline := typeChar_line s c
  have hvga : (typeChar s c).vga = (ttyWritechar s c).vga := rfl
  have hcur := h.cursor
  rw [hcursor] at hcur
  refine ⟨by omega, ?_, ?_, ?_⟩
  · rw [hvga, ttyWritechar_cursor, hcursor, hadv, hline.bufptr]
    simp only [appendChar]
    omega
  · intro i hi hlt
    rw [hline.bufptr] at hlt
    have hlt' : i < s.tty.bufptr + 1 := hlt
    have hcell : start - 80 + i + 80 = start + i := by omega
    rw [hvga, ttyWritechar_cells, hcursor, hadv, drawCells_append, drawCells_scroll, hline.color,
      hline.buf, appendChar_buf _ _ hlt, if_pos (by omega), hcell, drawCells_cell]
    by_cases hlast : i = s.tty.bufptr
    · rw [if_pos hlast, if_pos (by omega)]
      rfl
    · rw [if_neg hlast, if_neg (by omega)]
      exact h.line i hi (by omega)
  · intro i hi hlt
    rw [hvga, ttyWritechar_cells, hcursor, hadv, drawCells_append, drawCells_scroll,
      if_pos (by omega), drawCells_cell, if_neg (by omega), h.before _ (by omega) (by omega)]
    congr 1
    push_cast
    omega

/-- A backspace takes the last character from the line on the screen and in the buffer. -/
theorem Shown.erase {s : Console} {start : Int} {cells : Int → Nat} {n : Nat}
    (h : Shown s start cells n) (hptr : 0 < s.tty.bufptr) (hcursor : s.vga.cursor < 2000) :
    Shown (eraseChar s) start cells n := by
  have hcur := h.cursor
  have hfront := h.front
  have hadv := (advance_backspace s.tty.color (by omega) hcursor).1
  have hpos : ¬ s.tty.bufptr ≤ 0 := by omega
  have hline := eraseChar_line hpos
  have hvga : (eraseChar s).vga = (ttyWritechar s 8).vga := by rw [eraseChar, if_neg hpos]
  refine ⟨h.front, ?_, ?_, ?_⟩
  · rw [hvga, ttyWritechar_cursor, hadv, hline.bufptr]
    simp only [eraseLast]
    omega
  · intro i hi hlt
    rw [hline.bufptr] at hlt
    have hlt' : i < s.tty.bufptr - 1 := hlt
    rw [hvga, ttyWritechar_cells, hadv, hline.color, hline.buf, eraseLast_buf _ hlt,
      drawCells_cell, if_neg (by omega)]
    exact h.line i hi (by omega)
  · intro i hi hlt
    rw [hvga, ttyWritechar_cells, hadv, drawCells_cell, if_neg (by omega)]
    exact h.before i hi hlt

theorem typing_reader (s : Session) (scancode : UInt8) : (typing s scancode).reader = s.reader := by
  unfold typing
  split <;> rfl

theorem Echoing.read {s : Session} {c0 n : Nat} {cells : Int → Nat}
    (h : Echoing s c0 cells n) : move s .read = s := by
  rw [move, ttyRead, h.reader]
  simp only [h.flush]
  rfl

theorem Echoing.char {s : Session} {c0 n : Nat} {cells : Int → Nat} {scancode : UInt8}
    (h : Echoing s c0 cells n) (hk : keyOf scancode = .char) (hle : scancode ≤ 0x3A)
    (hlen : s.pending.length < 511)
    (hrun : kbdIrq s.con scancode = typeChar (setKbd s.con (pressed s.con.tty.kbd))
      (decode (pressed s.con.tty.kbd) scancode.toNat)) :
    Echoing (interrupt s scancode) c0 cells
      (n + if scrolled s (.irq scancode) then 1 else 0) := by
  have hc : Printable (decode (pressed s.con.tty.kbd) scancode.toNat) := decode_printable hk hle
  have hptr := h.ptr
  have honScreen := h.onScreen
  have hecho : echoed s.con scancode = some (decode (pressed s.con.tty.kbd) scancode.toNat) := by
    simp only [echoed, hk]
  have hwait : Waiting (interrupt s scancode) := by
    refine ⟨(typing_reader s scancode).trans h.reader, ?_⟩
    rw [interrupt, hrun, (typeChar_line _ _).kbd]
    exact h.flush
  have hpending : (kbdIrq s.con scancode).tty.bufptr = (interrupt s scancode).pending.length := by
    rw [kbdIrq_bufptr, hk]
    simp only [interrupt, typing, hk, List.length_append, List.length_singleton]
    omega
  have hshown := h.shown.setKbd (pressed s.con.tty.kbd)
  have hcursor := kbdIrq_vga s.con scancode
  simp only [hecho] at hcursor
  simp only [scrolled, hecho]
  by_cases hlast : s.con.vga.cursor < 1999
  · obtain ⟨hadv, hno⟩ := advance_printable s.con.tty.color hc hlast
    simp only [hno, decide_false, Bool.false_eq_true, if_false]
    refine ⟨hwait, ?_, ?_, hpending⟩
    · rw [interrupt, hrun]
      exact hshown.type hc (by simp only [setKbd]; omega) hlast
    · rw [interrupt, hcursor, ttyWritechar_cursor, hadv]
      omega
  · have heq : s.con.vga.cursor = 1999 := by omega
    obtain ⟨hadv, hyes⟩ := advance_last s.con.tty.color hc
    simp only [heq, hyes, decide_true, if_true]
    refine ⟨hwait, ?_, ?_, hpending⟩
    · have hstart : (c0 - 80 * (n + 1 : Nat) : Int) = c0 - 80 * n - 80 := by
        push_cast
        omega
      rw [interrupt, hrun, hstart]
      exact hshown.typeLast hc (by simp only [setKbd]; omega) (by simp only [setKbd]; omega) heq
    · rw [interrupt, hcursor, ttyWritechar_cursor, heq, hadv]
      omega

theorem Echoing.backspace {s : Session} {c0 n : Nat} {cells : Int → Nat} {scancode : UInt8}
    (h : Echoing s c0 cells n) (hk : keyOf scancode = .backspace)
    (hrun : kbdIrq s.con scancode = eraseChar (setKbd s.con (pressed s.con.tty.kbd))) :
    Echoing (interrupt s scancode) c0 cells
      (n + if scrolled s (.irq scancode) then 1 else 0) := by
  have hptr := h.ptr
  have hreader := (typing_reader s scancode).trans h.reader
  have hshown := h.shown.setKbd (pressed s.con.tty.kbd)
  have hpending : (kbdIrq s.con scancode).tty.bufptr = (interrupt s scancode).pending.length := by
    rw [kbdIrq_bufptr, hk]
    simp only [interrupt, typing, hk, List.length_dropLast]
    split_ifs <;> omega
  by_cases h0 : s.con.tty.bufptr ≤ 0
  · have hecho : echoed s.con scancode = none := by simp only [echoed, hk, if_pos h0]
    have hstart := eraseChar_start (s := setKbd s.con (pressed s.con.tty.kbd)) h0
    have hzero : s.con.tty.bufptr = 0 := by omega
    simp only [scrolled, hecho, Bool.false_eq_true, if_false]
    refine ⟨⟨hreader, ?_⟩, ?_, ?_, hpending⟩
    · rw [interrupt, hrun, hstart]
      exact h.flush
    · rw [interrupt, hrun, hstart, ← hzero]
      exact hshown
    · rw [interrupt, hrun, hstart]
      exact h.onScreen
  · have hecho : echoed s.con scancode = some 8 := by simp only [echoed, hk, if_neg h0]
    have hcursor := kbdIrq_vga s.con scancode
    have hcur := h.shown.cursor
    have hfront := h.shown.front
    obtain ⟨hadv, hno⟩ := advance_backspace s.con.tty.color
      (show 0 < s.con.vga.cursor by omega) h.onScreen
    simp only [hecho] at hcursor
    simp only [scrolled, hecho, hno, decide_false, Bool.false_eq_true, if_false]
    refine ⟨⟨hreader, ?_⟩, ?_, ?_, hpending⟩
    · rw [interrupt, hrun, (eraseChar_line (s := setKbd s.con (pressed s.con.tty.kbd)) h0).kbd]
      exact h.flush
    · rw [interrupt, hrun]
      exact hshown.erase (by simp only [setKbd]; omega) h.onScreen
    · have honScreen := h.onScreen
      rw [interrupt, hcursor, ttyWritechar_cursor, hadv]
      omega

theorem Echoing.step {s t : Session} {a : Move} {c0 n : Nat} {cells : Int → Nat}
    (h : Echoing s c0 cells n) (hq : Unfinished s a) (hst : Moves s a t) :
    Echoing t c0 cells (n + if scrolled s a then 1 else 0) := by
  obtain rfl := hst
  cases a with
  | read =>
    rw [h.read]
    exact h
  | irq scancode =>
    obtain ⟨⟨hmake, hroom⟩, henter⟩ := hq
    rcases kbdIrq_cases s.con scancode with ⟨hk, kbd, hrun, hflush⟩ | ⟨hk, -⟩ | ⟨hk, hrun⟩ |
      ⟨hk, hrun⟩
    · have hecho : echoed s.con scancode = none := by simp only [echoed, hk]
      have htyping : typing s scancode = s := by simp only [typing, hk]
      simp only [scrolled, hecho, move, interrupt, htyping, hrun, Bool.false_eq_true, if_false]
      exact ⟨⟨h.reader, hflush.trans h.flush⟩, h.shown.setKbd kbd, h.onScreen, h.ptr⟩
    · exact absurd hk henter
    · exact h.backspace hk hrun
    · refine h.char hk (hmake ?_) (hroom hk) hrun
      by_contra hrel
      rw [keyOf, if_pos hrel] at hk
      cases hk

/-- Before ENTER, the characters pending in the line buffer stand on the screen, the cursor is
behind them, and the text before them is what stood there, moved up by the scrolls. -/
theorem run_shown {s t : Session} {tr : List (Session × Move × Session)} (hwait : Waiting s)
    (hempty : s.pending = []) (hptr : s.con.tty.bufptr = 0) (hcursor : s.con.vga.cursor < 2000)
    (hrun : Run Moves s tr t) (hkeys : ∀ e ∈ tr, Unfinished e.1 e.2.1) :
    Shown t.con (s.con.vga.cursor - 80 * scrolls tr) s.con.vga.cells (scrolls tr) := by
  have hstart : Echoing s s.con.vga.cursor s.con.vga.cells 0 :=
    ⟨hwait, ⟨by omega, by omega, by omega, fun i _ _ => by congr 1; omega⟩, hcursor, by
      rw [hptr, hempty]; rfl⟩
  have hecho : Echoing t s.con.vga.cursor s.con.vga.cells (scrolls tr) := by
    induction hrun with
    | nil => exact hstart
    | snoc _ hst ih =>
      have hlast := (ih fun e he => hkeys e (List.mem_append_left _ he)).step
        (hkeys _ (List.mem_append_right _ (List.mem_singleton_self _))) hst
      rw [scrolls, List.countP_append, List.countP_singleton]
      exact hlast
  exact hecho.shown

/-- `a`, `b` and a backspace. -/
theorem run_shown_prompt :
    let s := { session darkScreen with reader := .whileFlush }
    let r := playMoves s [.irq 0x1E, .irq 0x30, .irq BACKSPACE, .read]
    Shown r.2.con (s.con.vga.cursor - 80 * scrolls r.1) s.con.vga.cells (scrolls r.1) :=
  run_shown ⟨rfl, rfl⟩ rfl rfl (by decide) (playMoves_run _ _) (by decide +kernel)

end Foos.Terminal
