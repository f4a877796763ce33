import Foos.PicRuns

/-! The masks of the two controllers over a run: `irq_disable` and `irq_enable` do to the chips what
they do to the mask registers alone, and a disabled line is not delivered. -/
namespace Foos.Pic
open Interrupts Transition

/-- A byte at the data port of the chip of a line, and the masks that are read then. -/
theorem Wired.inb_outb {p : Pair} (hw : Wired p) (no : Nat) (v : UInt8) :
    inb (outb p (picOf no + 1) v) = Function.update (inb p) (picOf no + 1) v := by
  have hm := Chip.data_mask hw.set.master.expect v
  have hs := Chip.data_mask hw.set.slave.expect v
  have hne : PIC1_DATA ≠ PIC2_DATA := by decide
  funext port
  by_cases hno : no < 8
  · have hport : picOf no + 1 = PIC1_DATA := congrArg (· + 1) (if_pos hno)
    rw [hport, outb_PIC1_DATA, hm]
    by_cases heq : port = PIC1_DATA
    · rw [heq, Function.update_self, inb_PIC1_DATA]
    · rw [Function.update_of_ne heq, inb, inb, if_neg heq, if_neg heq]
  · have hport : picOf no + 1 = PIC2_DATA := congrArg (· + 1) (if_neg hno)
    rw [hport, outb_PIC2_DATA, hs]
    by_cases heq : port = PIC2_DATA
    · rw [heq, Function.update_self, inb_PIC2_DATA]
    · rw [Function.update_of_ne heq, inb, inb, if_neg heq, if_neg heq]

/-- On initialized chips `irq_disable` and `irq_enable` are what they are on the registers. -/
theorem Wired.inb_irqDisable {p : Pair} (hw : Wired p) (no : Nat) :
    inb (Pic.irqDisable p no) = Interrupts.irqDisable (inb p) no := hw.inb_outb no _

theorem Wired.inb_irqEnable {p : Pair} (hw : Wired p) (no : Nat) :
    inb (Pic.irqEnable p no) = Interrupts.irqEnable (inb p) no := hw.inb_outb no _

/-- The masks are all that the data ports read. -/
theorem inb_congr {p q : Pair} (hm : q.master.imr = p.master.imr)
    (hs : q.slave.imr = p.slave.imr) : inb q = inb p := by
  funext port
  rw [inb, inb, hm, hs]

theorem Wired.inb_inta {p : Pair} (hw : Wired p) : inb (inta p).2 = inb p := by
  obtain ⟨-, h⟩ | ⟨k, -, -, h⟩ | ⟨j, -, -, h⟩ := hw.inta_cases
  · rw [h]
  · rw [h]
    exact inb_congr rfl rfl
  · rw [h]
    exact inb_congr rfl rfl

theorem inb_request (p : Pair) (line : Nat) (on : Bool) : inb (request p line on) = inb p := by
  rw [request]
  split <;> exact inb_congr rfl rfl

theorem inb_eoi (p : Pair) (irq : Nat) : inb (picSendEoi p irq) = inb p := by
  rw [picSendEoi]
  split
  · rw [outb_PIC1_CMD, outb_PIC2_CMD, command_eoi, command_eoi]
    exact inb_congr rfl rfl
  · rw [outb_PIC1_CMD, command_eoi]
    exact inb_congr rfl rfl

theorem apart_of_ne {no line : Nat} (hno : no < 16) (hline : line < 16) (h : no ≠ line) :
    Apart no line := by
  intro hpic
  have hpics : PIC1 ≠ PIC2 := by decide
  simp only [picOf] at hpic
  split at hpic <;> split at hpic
  · omega
  · exact absurd hpic hpics
  · exact absurd hpic.symm hpics
  · omega

/-- A masked line stays masked until it is enabled. -/
theorem Inv.masked_step {s t : System} {a : Act} {line : Nat} (h : Inv s) (hline : line < 16)
    (hst : Step s a t) (ha : a ≠ .irqEnable line) (hm : Masked (inb s.pics) line) :
    Masked (inb t.pics) line := by
  cases hst with
  | request on hl h2 =>
    rw [inb_request]
    exact hm
  | @irqDisable no hno hph =>
    rw [h.wired.inb_irqDisable]
    by_cases heq : no = line
    · rw [heq]
      exact irqDisable_masked _ line
    · exact (irqDisable_other (apart_of_ne hno hline heq) _).mpr hm
  | @irqEnable no hno hph =>
    rw [h.wired.inb_irqEnable]
    have hne : no ≠ line := fun heq => ha (congrArg Act.irqEnable heq)
    exact (irqEnable_other (apart_of_ne hno hline hne) _).mpr hm
  | setInts on hph => exact hm
  | accept hph =>
    have hinb : inb (enter s (inta s.pics)).pics = inb s.pics := h.wired.inb_inta
    rw [hinb]
    exact hm
  | @acceptLate l hph hready hslave =>
    have hinb : inb { s.pics with master := s.pics.master.take l } = inb s.pics := inb_congr rfl rfl
    exact hinb.symm ▸ hm
  | sendEoi hph hirq =>
    have hinb := inb_eoi s.pics
    rw [hinb]
    exact hm
  | handle hph => exact hm

end Foos.Pic
