import Foos.Keyboard
import Foos.Screen

/-! `tty_writechar` as its port accesses and cell writes, with the keyboard interrupt between any
two of them. -/
namespace Foos.Terminal.Ports
open Transition

/-- The access that the call `tty_writechar(c)` makes next. -/
inductive Pc where
  | out
  | getSelectHigh (c : UInt8)
  | getHigh (c : UInt8)
  | getSelectLow (c : UInt8) (ret : Nat)
  | getLow (c : UInt8) (ret : Nat)
  | cells (c : UInt8) (ops : List CellOp) (offset : Nat)
  | setSelectLow (c : UInt8) (offset : Nat)
  | setLow (c : UInt8) (offset : Nat)
  | setSelectHigh (c : UInt8) (offset : Nat)
  | setHigh (c : UInt8) (offset : Nat)
  | setCursor (c : UInt8) (offset : Nat)
  | setLast (c : UInt8)

structure State where
  con : Console
  pc : Pc

inductive Act where
  | call (c : UInt8)
  | access
  | irq (scancode : UInt8)

def Act.isIrq : Act → Bool
  | .irq _ => true
  | _ => false

def setVga (s : State) (v : Vga) (pc : Pc) : State := ⟨{ s.con with vga := v }, pc⟩

/-- One access of `tty_writechar`. -/
def access (s : State) : State :=
  let v := s.con.vga
  match s.pc with
  | .out => s
  | .getSelectHigh c => setVga s (outb v .VGA_CMD 0xE) (.getHigh c)
  | .getHigh c => { s with pc := .getSelectLow c ((inb v .VGA_DATA).toNat * 256) }
  | .getSelectLow c ret => setVga s (outb v .VGA_CMD 0xF) (.getLow c ret)
  | .getLow c ret =>
    let (ops, offset) := advance s.con.tty.color c (ret + (inb v .VGA_DATA).toNat)
    { s with pc := .cells c ops offset }
  | .cells c [] offset => { s with pc := .setSelectLow c offset }
  | .cells c (op :: ops) offset => setVga s (draw v [op]) (.cells c ops offset)
  | .setSelectLow c offset => setVga s (outb v .VGA_CMD 0xF) (.setLow c offset)
  | .setLow c offset => setVga s (outb v .VGA_DATA (UInt8.ofNat offset)) (.setSelectHigh c offset)
  | .setSelectHigh c offset => setVga s (outb v .VGA_CMD 0xE) (.setHigh c offset)
  | .setHigh c offset =>
    setVga s (outb v .VGA_DATA (UInt8.ofNat (offset / 256))) (.setCursor c offset)
  | .setCursor c offset =>
    ⟨{ s.con with tty := { s.con.tty with cursor := UInt8.ofNat offset } }, .setLast c⟩
  | .setLast c => ⟨Terminal.setLast s.con c, .out⟩

def act (s : State) : Act → State
  | .call c => { s with pc := .getSelectHigh c }
  | .access => access s
  | .irq scancode => { s with con := kbdIrq s.con scancode }

def Pc.isOut : Pc → Bool
  | .out => true
  | _ => false

/-- The kernel calls `tty_writechar` when no call is in progress; interrupts come at any time. -/
def Enabled (s : State) : Act → Prop
  | .call _ => s.pc.isOut = true
  | .access => s.pc.isOut = false
  | .irq _ => True

def Step (s : State) (a : Act) (t : State) : Prop := Enabled s a ∧ t = act s a

def Pc.isSetLast : Pc → Bool
  | .setLast _ => true
  | _ => false

/-- The step completes a `tty_writechar`: of the kernel, or the echo of the interrupt. -/
def Completes (s : State) : Act → Prop
  | .call _ => False
  | .access => s.pc.isSetLast = true
  | .irq scancode => echoed s.con scancode ≠ none

/-- The character, and the high byte of the position that is being read. -/
def Pc.reading : Pc → Option (UInt8 × Nat)
  | .getLow c ret => some (c, ret)
  | _ => none

/-- No backspace is written at the first cell. -/
def NoFrontBackspace (s : State) : Act → Prop
  | .call _ => True
  | .access => ∀ p ∈ s.pc.reading, p.1 = 8 → p.2 + (inb s.con.vga .VGA_DATA).toNat ≠ 0
  | .irq scancode => echoed s.con scancode = some 8 → s.con.vga.cursor ≠ 0

/-- The position that is being written, between the first and the last `outb` of
`tty_update_cursor`. -/
def Pc.window : Pc → Option Nat
  | .setLow _ offset | .setSelectHigh _ offset | .setHigh _ offset => some offset
  | _ => none

/-- No interrupt echoes while `tty_update_cursor` writes a position from 1792 = 7*256 on. -/
def Undisturbed (s : State) : Act → Prop
  | .irq scancode => ∀ offset ∈ s.pc.window, 1792 ≤ offset → echoed s.con scancode = none
  | _ => True

/-- What the ports hold on the way. -/
def Holds (v : Vga) : Pc → Prop
  | .cells _ _ offset | .setSelectLow _ offset => offset < 2000 ∧ v.cursor < 2000
  | .setLow _ offset => offset < 2000 ∧ (1792 ≤ offset → v.index = 0xF)
  | .setSelectHigh _ offset =>
    offset < 2000 ∧ (1792 ≤ offset → v.regs 0xF = UInt8.ofNat offset)
  | .setHigh _ offset =>
    offset < 2000 ∧ v.index = 0xE ∧ (1792 ≤ offset → v.regs 0xF = UInt8.ofNat offset)
  | _ => v.cursor < 2000

/-- The accesses lead from one state to another with no interrupt between them. -/
def Uninterrupted (s t : State) : Prop :=
  ∃ tr, Run Step s tr t ∧ ∀ e ∈ tr, e.2.1.isIrq = false

theorem Uninterrupted.refl (s : State) : Uninterrupted s s :=
  ⟨[], .nil, fun _ he => absurd he List.not_mem_nil⟩

theorem Uninterrupted.step {s t : State} {a : Act} (ha : a.isIrq = false)
    (hen : Enabled s a) (h : Uninterrupted (act s a) t) : Uninterrupted s t := by
  obtain ⟨tr, hrun, hall⟩ := h
  refine ⟨(s, a, act s a) :: tr, Run.cons ⟨hen, rfl⟩ hrun, fun e he => ?_⟩
  cases List.mem_cons.mp he with
  | inl heq =>
    obtain rfl := heq
    exact ha
  | inr he => exact hall e he

theorem Uninterrupted.access {s t : State} (hen : s.pc.isOut = false)
    (h : Uninterrupted (act s .access) t) : Uninterrupted s t := h.step (a := .access) rfl hen

theorem uninterrupted_cells {con : Console} {c : UInt8} {offset : Nat} {t : State}
    (ops : List CellOp) (h : Uninterrupted
      ⟨{ con with vga := draw con.vga ops }, .setSelectLow c offset⟩ t) :
    Uninterrupted ⟨con, .cells c ops offset⟩ t := by
  induction ops generalizing con with
  | nil => exact .access rfl h
  | cons op ops ih => exact .access rfl (ih h)

/-- Without interrupts the accesses are `tty_writechar`. -/
theorem uninterrupted_ttyWritechar (con : Console) (c : UInt8) :
    Uninterrupted ⟨con, .out⟩ ⟨ttyWritechar con c, .out⟩ := by
  refine .step (a := .call c) rfl rfl ?_
  -- the read of the cursor
  refine .access rfl (.access rfl (.access rfl (.access rfl ?_)))
  refine uninterrupted_cells _ ?_
  -- its update
  refine .access rfl (.access rfl (.access rfl (.access rfl (.access rfl (.access rfl ?_)))))
  exact .refl _

def Inv (s : State) : Prop := Holds s.con.vga s.pc

/-- The two bytes form a position on the screen: the low byte matters from 1792 on. -/
theorem cursor_setHigh {v : Vga} {offset : Nat} (hlt : offset < 2000) (hindex : v.index = 0xE)
    (hlow : 1792 ≤ offset → v.regs 0xF = UInt8.ofNat offset) :
    (outb v .VGA_DATA (UInt8.ofNat (offset / 256))).cursor < 2000 := by
  have hne : (0xF : UInt8) ≠ 0xE := by decide
  have hreg := (v.regs 0xF).toNat_lt
  simp only [Vga.cursor, outb, hindex, Function.update_self, Function.update_of_ne hne,
    UInt8.toNat_ofNat']
  by_cases hoff : 1792 ≤ offset
  · rw [hlow hoff, UInt8.toNat_ofNat']
    omega
  · omega

theorem holds_access {s : State} (h : Holds s.con.vga s.pc) (hq : NoFrontBackspace s .access) :
    Holds (access s).con.vga (access s).pc := by
  obtain ⟨con, pc⟩ := s
  cases pc with
  | getLow c ret =>
    exact ⟨advance_lt_screen (hq _ rfl), h⟩
  | cells c ops offset =>
    cases ops with
    | nil => exact h
    | cons op ops => exact h
  | setSelectLow c offset => exact ⟨h.1, fun _ => rfl⟩
  | setLow c offset =>
    refine ⟨h.1, fun hoff => ?_⟩
    have hindex : con.vga.index = 0xF := h.2 hoff
    simp only [access, setVga, outb, hindex, Function.update_self]
  | setSelectHigh c offset => exact ⟨h.1, rfl, h.2⟩
  | setHigh c offset => exact cursor_setHigh h.1 h.2.1 h.2.2
  | setLast c =>
    simp only [access, setLast_vga]
    exact h
  | _ => exact h

/-- An echo leaves the cursor on the screen and the index at its high byte. -/
theorem kbdIrq_ports {con : Console} {scancode c : UInt8} (hecho : echoed con scancode = some c)
    (hb : c = 8 → con.vga.cursor ≠ 0) :
    (kbdIrq con scancode).vga.cursor < 2000 ∧ (kbdIrq con scancode).vga.index = 0xE := by
  have hvga := kbdIrq_vga con scancode
  simp only [hecho] at hvga
  rw [hvga]
  refine ⟨?_, by rw [ttyWritechar_vga]; rfl⟩
  rw [ttyWritechar_cursor]
  exact advance_lt_screen hb

theorem holds_irq {s : State} {scancode : UInt8} (h : Holds s.con.vga s.pc)
    (hq : NoFrontBackspace s (.irq scancode)) (hu : Undisturbed s (.irq scancode)) :
    Holds (kbdIrq s.con scancode).vga s.pc := by
  obtain ⟨con, pc⟩ := s
  cases hecho : echoed con scancode with
  | none =>
    have hvga := kbdIrq_vga con scancode
    simp only [hecho] at hvga
    rw [hvga]
    exact h
  | some c =>
    obtain ⟨hcursor, hindex⟩ := kbdIrq_ports hecho fun hc => hq (hc ▸ hecho)
    have hlow : ∀ offset, pc.window = some offset → ¬ 1792 ≤ offset := by
      intro offset hw hoff
      rw [hu offset hw hoff] at hecho
      cases hecho
    cases pc with
    | cells c ops offset => exact ⟨h.1, hcursor⟩
    | setSelectLow c offset => exact ⟨h.1, hcursor⟩
    | setLow c offset => exact ⟨h.1, fun hoff => absurd hoff (hlow offset rfl)⟩
    | setSelectHigh c offset => exact ⟨h.1, fun hoff => absurd hoff (hlow offset rfl)⟩
    | setHigh c offset => exact ⟨h.1, hindex, fun hoff => absurd hoff (hlow offset rfl)⟩
    | _ => exact hcursor

theorem Inv.step {s t : State} {a : Act} (h : Inv s)
    (hq : NoFrontBackspace s a ∧ Undisturbed s a) (hst : Step s a t) : Inv t := by
  obtain ⟨hen, rfl⟩ := hst
  cases a with
  | call c =>
    obtain ⟨con, pc⟩ := s
    cases pc with
    | out => exact h
    | _ => cases hen
  | access => exact holds_access h hq.1
  | irq scancode => exact holds_irq h hq.1 hq.2

/-- In every run without a backspace at the first cell in which no interrupt echoes while a
position on the last lines is written, every completed `tty_writechar` leaves the cursor on the
screen. -/
theorem run_cursor_lt {s t : State} {tr : List (State × Act × State)} (hout : s.pc = .out)
    (hstart : s.con.vga.cursor < 2000) (hrun : Run Step s tr t)
    (hfront : ∀ e ∈ tr, NoFrontBackspace e.1 e.2.1) (hquiet : ∀ e ∈ tr, Undisturbed e.1 e.2.1) :
    ∀ e ∈ tr, Completes e.1 e.2.1 → e.2.2.con.vga.cursor < 2000 := by
  intro e he hdone
  have hs : Inv s := by
    rw [Inv, hout]
    exact hstart
  have hstep : ∀ s a t, Inv s → NoFrontBackspace s a ∧ Undisturbed s a → Step s a t → Inv t :=
    fun _ _ _ h hq hst => h.step hq hst
  obtain ⟨h, hen, heq⟩ := hrun.invariant_at hstep hs (fun e he => ⟨hfront e he, hquiet e he⟩) he
  have hf := hfront e he
  rw [heq]
  obtain ⟨s', a, t'⟩ := e
  simp only at hf h hdone ⊢
  cases a with
  | call c => cases hdone
  | access =>
    have h' := holds_access h hf
    obtain ⟨con, pc⟩ := s'
    cases pc with
    | setLast c => exact h'
    | _ => cases hdone
  | irq scancode =>
    obtain ⟨c, hc⟩ := Option.ne_none_iff_exists'.mp hdone
    have hb : c = 8 → s'.con.vga.cursor ≠ 0 := by
      rintro rfl
      exact hf hc
    exact (kbdIrq_ports hc hb).1

theorem run_act (s : State) (as : List Act)
    (h : ∀ e ∈ trace act s as, Enabled e.1 e.2.1) : Run Step s (trace act s as) (as.foldl act s) :=
  Run.of_trace as fun e he => ⟨h e he, rfl⟩

instance (s : State) : (a : Act) → Decidable (Enabled s a)
  | .call _ => inferInstanceAs (Decidable (_ = true))
  | .access => inferInstanceAs (Decidable (_ = false))
  | .irq _ => inferInstanceAs (Decidable True)

instance (s : State) : (a : Act) → Decidable (Completes s a)
  | .call _ => inferInstanceAs (Decidable False)
  | .access => inferInstanceAs (Decidable (_ = true))
  | .irq _ => inferInstanceAs (Decidable (_ ≠ none))

instance (s : State) : (a : Act) → Decidable (NoFrontBackspace s a)
  | .call _ => inferInstanceAs (Decidable True)
  | .access => inferInstanceAs (Decidable (∀ _ ∈ s.pc.reading, _ → _ ≠ 0))
  | .irq _ => inferInstanceAs (Decidable (_ = some 8 → _ ≠ 0))

instance (s : State) : (a : Act) → Decidable (Undisturbed s a)
  | .call _ | .access => inferInstanceAs (Decidable True)
  | .irq _ => inferInstanceAs (Decidable (∀ _ ∈ s.pc.window, _ → _ = none))

/-- The cursor at 1770 in line 22. -/
def line22 : State :=
  ⟨⟨⟨0xE, Function.update (fun _ => 6) 0xF 234, fun _ => blank⟩, blankConsole.tty⟩, .out⟩

/-- A newline, which goes to 1840 = 7*256+48, and an `a` typed after so many accesses. -/
def newline (n m : Nat) : List Act :=
  .call 10 :: List.replicate n .access ++ .irq 0x1E :: List.replicate m .access

theorem run_cursor_lt_newline :
    Run Step line22 (trace act line22 (newline 5 6)) ((newline 5 6).foldl act line22) ∧
    ∀ e ∈ trace act line22 (newline 5 6),
      Completes e.1 e.2.1 → e.2.2.con.vga.cursor < 2000 := by
  have hrun := run_act line22 (newline 5 6) (by decide +kernel)
  exact ⟨hrun, run_cursor_lt rfl (by decide +kernel) hrun (by decide +kernel) (by decide +kernel)⟩

/-- Typed after the low byte was selected, the `a` leaves 235 there. -/
theorem run_cursor_fails : line22.pc = .out ∧ line22.con.vga.cursor = 1770 ∧
    Run Step line22 (trace act line22 (newline 6 5)) ((newline 6 5).foldl act line22) ∧
    (∀ e ∈ trace act line22 (newline 6 5), NoFrontBackspace e.1 e.2.1) ∧
    ((newline 6 5).foldl act line22).con.vga.cursor = 2027 ∧
    ¬ ∀ e ∈ trace act line22 (newline 6 5), Completes e.1 e.2.1 → e.2.2.con.vga.cursor < 2000 :=
  ⟨rfl, by decide +kernel, run_act _ _ (by decide +kernel), by decide +kernel, by decide +kernel,
    by decide +kernel⟩

end Foos.Terminal.Ports
