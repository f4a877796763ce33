import Mathlib.Logic.Function.Basic

/-! The interrupt lines in the mask registers of the two controllers, as `irq_enable` and
`irq_disable` of `kernel/interrupt.c` leave them by way of `kernel/dev/pic.c`. -/
namespace Foos.Interrupts

def PIC1 : Nat := 0x20
def PIC2 : Nat := 0xA0

/-- What the data ports of the controllers read, by port. -/
abbrev Ports := Nat → UInt8

/-- `1<<offset`, as a byte. -/
def lineBit (offset : Nat) : UInt8 := UInt8.ofNat (1 <<< offset)

def picMask (io : Ports) (pic offset : Nat) : Ports :=
  Function.update io (pic + 1) (io (pic + 1) ||| lineBit offset)

def picUnmask (io : Ports) (pic offset : Nat) : Ports :=
  Function.update io (pic + 1) (io (pic + 1) &&& ~~~lineBit offset)

/-- `no<8 ? PIC1:PIC2` -/
def picOf (no : Nat) : Nat := if no < 8 then PIC1 else PIC2

def irqDisable (io : Ports) (no : Nat) : Ports := picMask io (picOf no) (no % 8)

def irqEnable (io : Ports) (no : Nat) : Ports := picUnmask io (picOf no) (no % 8)

/-- The controller of the line does not pass it on. -/
def Masked (io : Ports) (line : Nat) : Prop := io (picOf line + 1) &&& lineBit (line % 8) ≠ 0

instance (io : Ports) (line : Nat) : Decidable (Masked io line) :=
  inferInstanceAs (Decidable (_ ≠ _))

theorem lineBit_self : ∀ k < 8, lineBit k ≠ 0 ∧ ~~~lineBit k &&& lineBit k = 0 := by
  decide

theorem lineBit_other : ∀ k < 8, ∀ j < 8, k ≠ j →
    lineBit k &&& lineBit j = 0 ∧ ~~~lineBit k &&& lineBit j = lineBit j := by
  decide

theorem or_and_distrib (a b c : UInt8) : (a ||| b) &&& c = a &&& c ||| b &&& c :=
  UInt8.toBitVec_inj.mp BitVec.and_or_distrib_right

theorem irqDisable_masked (io : Ports) (no : Nat) : Masked (irqDisable io no) no := by
  have hbit := (lineBit_self (no % 8) (Nat.mod_lt _ (by decide))).1
  rw [Masked, irqDisable, picMask, Function.update_self, or_and_distrib, UInt8.and_self]
  intro h
  exact hbit (UInt8.or_eq_zero_iff.mp h).2

theorem irqEnable_unmasked (io : Ports) (no : Nat) : ¬ Masked (irqEnable io no) no := by
  have hbit := (lineBit_self (no % 8) (Nat.mod_lt _ (by decide))).2
  rw [Masked, irqEnable, picUnmask, Function.update_self, UInt8.and_assoc, hbit, UInt8.and_zero]
  exact not_not_intro rfl

/-- A line that is not reached by the same bit of the same register. -/
def Apart (no line : Nat) : Prop := picOf no = picOf line → no % 8 ≠ line % 8

theorem irqDisable_other {no line : Nat} (h : Apart no line) (io : Ports) :
    Masked (irqDisable io no) line ↔ Masked io line := by
  rw [Masked, Masked, irqDisable, picMask]
  by_cases hpic : picOf no = picOf line
  · have hbit := (lineBit_other (no % 8) (Nat.mod_lt _ (by decide)) (line % 8)
      (Nat.mod_lt _ (by decide)) (h hpic)).1
    rw [hpic, Function.update_self, or_and_distrib, hbit, UInt8.or_zero]
  · rw [Function.update_of_ne fun heq => hpic (Nat.succ.inj heq).symm]

theorem irqEnable_other {no line : Nat} (h : Apart no line) (io : Ports) :
    Masked (irqEnable io no) line ↔ Masked io line := by
  rw [Masked, Masked, irqEnable, picUnmask]
  by_cases hpic : picOf no = picOf line
  · have hbit := (lineBit_other (no % 8) (Nat.mod_lt _ (by decide)) (line % 8)
      (Nat.mod_lt _ (by decide)) (h hpic)).2
    rw [hpic, Function.update_self, UInt8.and_assoc, hbit]
  · rw [Function.update_of_ne fun heq => hpic (Nat.succ.inj heq).symm]

/-- No other number reaches the line of the keyboard. -/
theorem apart_keyboard {no : Nat} (h : no ≠ 1) : Apart no 1 := by
  intro hpic
  have hone : picOf 1 = PIC1 := rfl
  by_cases hlt : no < 8
  · omega
  · rw [picOf, if_neg hlt, hone] at hpic
    exact absurd hpic (by decide)

end Foos.Interrupts
