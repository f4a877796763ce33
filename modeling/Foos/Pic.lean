import Mathlib.Data.Nat.Bitwise
import Mathlib.Tactic.IntervalCases
import Foos.Interrupts
import Foos.Transition

/-! The two interrupt controllers as `kernel/dev/pic.c` programs them: what a byte at one of their
ports does, the interrupts that they pass on to the processor, and the end of interrupt that
`irq_handler` of `kernel/interrupt.c` sends. -/
namespace Foos.Pic
open Interrupts Transition

def PIC1_CMD : Nat := PIC1
def PIC1_DATA : Nat := PIC1 + 1
def PIC2_CMD : Nat := PIC2
def PIC2_DATA : Nat := PIC2 + 1
def PIC_EOI : UInt8 := 0x20
def ICW1_ICW4 : UInt8 := 0x01
def ICW1_SINGLE : UInt8 := 0x02
def ICW1_INIT : UInt8 := 0x10
def ICW4_8086 : UInt8 := 0x01

/-- What a controller takes the next byte at its data port for. -/
inductive Expect where
  | mask | icw2 | icw3 | icw4
  deriving DecidableEq

/-- An 8259: the initialization words that it was given, the mask, the requests and the interrupts
in service. -/
structure Chip where
  expect : Expect
  icw1 : UInt8
  offset : UInt8
  cascade : UInt8
  mode : UInt8
  imr : UInt8
  irr : UInt8
  isr : UInt8
  deriving DecidableEq

namespace Chip

/-- `ICW1` starts the initialization anew; an end of interrupt clears the bit of the highest
priority in service, which is the lowest one. -/
def command (c : Chip) (v : UInt8) : Chip :=
  if v &&& ICW1_INIT ≠ 0 then
    { c with expect := .icw2, icw1 := v, imr := 0, irr := 0, isr := 0 }
  else if v = PIC_EOI then { c with isr := c.isr &&& (c.isr - 1) }
  else c

/-- The words that `ICW1` announces come in a row. -/
def afterCascade (c : Chip) : Chip :=
  { c with expect := if c.icw1 &&& ICW1_ICW4 ≠ 0 then .icw4 else .mask }

def data (c : Chip) (v : UInt8) : Chip :=
  match c.expect with
  | .mask => { c with imr := v }
  | .icw2 =>
    let c := { c with offset := v &&& 0xF8 }
    if c.icw1 &&& ICW1_SINGLE ≠ 0 then c.afterCascade else { c with expect := .icw3 }
  | .icw3 => { c with cascade := v }.afterCascade
  | .icw4 => { c with mode := v, expect := .mask }

end Chip

structure Pair where
  master : Chip
  slave : Chip
  deriving DecidableEq

def outb (p : Pair) (port : Nat) (v : UInt8) : Pair :=
  if port = PIC1_CMD then { p with master := p.master.command v }
  else if port = PIC1_DATA then { p with master := p.master.data v }
  else if port = PIC2_CMD then { p with slave := p.slave.command v }
  else if port = PIC2_DATA then { p with slave := p.slave.data v }
  else p

/-- The data ports read the mask. -/
def inb (p : Pair) (port : Nat) : UInt8 :=
  if port = PIC1_DATA then p.master.imr
  else if port = PIC2_DATA then p.slave.imr
  else 0

def picRemap (p : Pair) (offset1 offset2 : UInt8) : Pair :=
  let mask := inb p PIC1_DATA
  let mask2 := inb p PIC2_DATA
  let p := outb p PIC1_CMD (ICW1_INIT ||| ICW1_ICW4)
  let p := outb p PIC2_CMD (ICW1_INIT ||| ICW1_ICW4)
  let p := outb p PIC1_DATA offset1
  let p := outb p PIC2_DATA offset2
  let p := outb p PIC1_DATA 4
  let p := outb p PIC2_DATA 2
  let p := outb p PIC1_DATA ICW4_8086
  let p := outb p PIC2_DATA ICW4_8086
  let p := outb p PIC1_DATA mask
  outb p PIC2_DATA mask2

def picSendEoi (p : Pair) (irq : Nat) : Pair :=
  let p := if 8 ≤ irq then outb p PIC2_CMD PIC_EOI else p
  outb p PIC1_CMD PIC_EOI

def picMask (p : Pair) (pic offset : Nat) : Pair :=
  outb p (pic + 1) (inb p (pic + 1) ||| lineBit offset)

def picUnmask (p : Pair) (pic offset : Nat) : Pair :=
  outb p (pic + 1) (inb p (pic + 1) &&& ~~~lineBit offset)

def picDisable (p : Pair) : Pair := outb (outb p PIC1_DATA 0xFF) PIC2_DATA 0xFF

def irqDisable (p : Pair) (no : Nat) : Pair := picMask p (picOf no) (no % 8)
def irqEnable (p : Pair) (no : Nat) : Pair := picUnmask p (picOf no) (no % 8)

/-- A chip that is initialized as `pic_remap` does it. -/
structure Chip.Set (c : Chip) (offset cascade : UInt8) : Prop where
  expect : c.expect = .mask
  icw1 : c.icw1 = ICW1_INIT ||| ICW1_ICW4
  offset : c.offset = offset
  cascade : c.cascade = cascade
  mode : c.mode = ICW4_8086

structure Pair.Set (p : Pair) : Prop where
  master : p.master.Set 0x20 4
  slave : p.slave.Set 0x28 2

section
variable (p : Pair) (v : UInt8)

@[simp] theorem outb_PIC1_CMD : outb p PIC1_CMD v = { p with master := p.master.command v } :=
  if_pos rfl

@[simp] theorem outb_PIC1_DATA : outb p PIC1_DATA v = { p with master := p.master.data v } :=
  (if_neg (by decide)).trans (if_pos rfl)

@[simp] theorem outb_PIC2_CMD : outb p PIC2_CMD v = { p with slave := p.slave.command v } :=
  (if_neg (by decide)).trans ((if_neg (by decide)).trans (if_pos rfl))

@[simp] theorem outb_PIC2_DATA : outb p PIC2_DATA v = { p with slave := p.slave.data v } :=
  (if_neg (by decide)).trans ((if_neg (by decide)).trans ((if_neg (by decide)).trans (if_pos rfl)))

@[simp] theorem inb_PIC1_DATA : inb p PIC1_DATA = p.master.imr := if_pos rfl

@[simp] theorem inb_PIC2_DATA : inb p PIC2_DATA = p.slave.imr :=
  (if_neg (by decide)).trans (if_pos rfl)

end

/-- The words of `pic_remap` for one chip, with its mask behind them. -/
theorem Chip.remap (c : Chip) (offset cascade mask : UInt8) :
    (((((c.command (ICW1_INIT ||| ICW1_ICW4)).data offset).data cascade).data ICW4_8086).data mask) =
      ⟨.mask, ICW1_INIT ||| ICW1_ICW4, offset &&& 0xF8, cascade, ICW4_8086, mask, 0, 0⟩ := by
  have hinit : (ICW1_INIT ||| ICW1_ICW4) &&& ICW1_INIT ≠ 0 := by decide
  have hsingle : ¬ (ICW1_INIT ||| ICW1_ICW4) &&& ICW1_SINGLE ≠ 0 := by decide
  have hicw4 : (ICW1_INIT ||| ICW1_ICW4) &&& ICW1_ICW4 ≠ 0 := by decide
  simp only [command, if_pos hinit, data, if_neg hsingle, afterCascade, if_pos hicw4]

theorem picRemap_eq (p : Pair) (offset1 offset2 : UInt8) :
    picRemap p offset1 offset2 =
      ⟨⟨.mask, ICW1_INIT ||| ICW1_ICW4, offset1 &&& 0xF8, 4, ICW4_8086, p.master.imr, 0, 0⟩,
        ⟨.mask, ICW1_INIT ||| ICW1_ICW4, offset2 &&& 0xF8, 2, ICW4_8086, p.slave.imr, 0, 0⟩⟩ := by
  simp only [picRemap, outb_PIC1_CMD, outb_PIC1_DATA, outb_PIC2_CMD, outb_PIC2_DATA,
    inb_PIC1_DATA, inb_PIC2_DATA, Chip.remap]

/- Interrupts on their way to the processor. -/

def bit (v : UInt8) (k : Nat) : Bool := v &&& lineBit k ≠ 0

theorem lineBit_toNat {k : Nat} (h : k < 8) : (lineBit k).toNat = 2 ^ k := by
  interval_cases k <;> rfl

theorem bit_eq_testBit (v : UInt8) {k : Nat} (h : k < 8) : bit v k = v.toNat.testBit k := by
  have hand : (v &&& lineBit k).toNat = (v.toNat.testBit k).toNat * 2 ^ k := by
    rw [UInt8.toNat_and, lineBit_toNat h, Nat.and_two_pow]
  have hpos : 0 < 2 ^ k := Nat.two_pow_pos k
  cases hb : v.toNat.testBit k with
  | true =>
    rw [hb] at hand
    refine decide_eq_true fun h0 => ?_
    rw [h0] at hand
    simp at hand
    omega
  | false =>
    rw [hb] at hand
    refine decide_eq_false (not_not_intro (UInt8.toNat_inj.mp ?_))
    simpa using hand

theorem bit_and (v w : UInt8) {k : Nat} (h : k < 8) : bit (v &&& w) k = (bit v k && bit w k) := by
  rw [bit_eq_testBit _ h, bit_eq_testBit v h, bit_eq_testBit w h, UInt8.toNat_and,
    Nat.testBit_and]

theorem bit_or (v w : UInt8) {k : Nat} (h : k < 8) : bit (v ||| w) k = (bit v k || bit w k) := by
  rw [bit_eq_testBit _ h, bit_eq_testBit v h, bit_eq_testBit w h, UInt8.toNat_or, Nat.testBit_or]

theorem bit_not (v : UInt8) {k : Nat} (h : k < 8) : bit (~~~v) k = !bit v k := by
  have hlt := v.toNat_lt
  rw [bit_eq_testBit _ h, bit_eq_testBit v h, UInt8.toNat_not]
  have hsub : UInt8.size - 1 - v.toNat = 2 ^ 8 - (v.toNat + 1) := by
    simp only [UInt8.size]
    omega
  rw [hsub, Nat.testBit_two_pow_sub_succ hlt]
  simp [h]

/-- A line that is requested, not masked, and of a higher priority than all in service. -/
def Chip.passes (c : Chip) (requests : UInt8) (k : Nat) : Bool :=
  bit (requests &&& ~~~c.imr) k && (List.range (k + 1)).all fun j => !bit c.isr j

/-- The line that a chip passes on is the lowest of these. -/
def Chip.ready (c : Chip) (requests : UInt8) : Option Nat :=
  (List.range 8).find? (c.passes requests)

/-- The processor acknowledges the line. -/
def Chip.take (c : Chip) (k : Nat) : Chip :=
  { c with irr := c.irr &&& ~~~lineBit k, isr := c.isr ||| lineBit k }

/-- The master sees the output of the slave at the lines of its cascade word. -/
def Pair.requests (p : Pair) : UInt8 :=
  if (p.slave.ready p.slave.irr).isSome then p.master.irr ||| p.master.cascade else p.master.irr

/-- The acknowledge cycle: the vector that the processor reads. A request that has gone away
counts as line 7 of its chip, which then does not mark it in service. At a line of the cascade
word the slave of that identity answers, or nobody does. -/
def inta (p : Pair) : Nat × Pair :=
  match p.master.ready p.requests with
  | none => (p.master.offset.toNat + 7, p)
  | some k =>
    let q := { p with master := p.master.take k }
    if ¬ bit p.master.cascade k then (p.master.offset.toNat + k, q)
    else if p.slave.cascade.toNat = k then
      match p.slave.ready p.slave.irr with
      | none => (p.slave.offset.toNat + 7, q)
      | some j => (p.slave.offset.toNat + j, { q with slave := p.slave.take j })
    else (0xFF, q)

/-- A device sets or withdraws its request. -/
def request (p : Pair) (line : Nat) (on : Bool) : Pair :=
  let set (v : UInt8) : UInt8 :=
    if on then v ||| lineBit (line % 8) else v &&& ~~~lineBit (line % 8)
  if line < 8 then { p with master := { p.master with irr := set p.master.irr } }
  else { p with slave := { p.slave with irr := set p.slave.irr } }

/-- What the processor is doing: other kernel code, with interrupts on or off, the entry of
`irq_handler` for a vector, or the rest of it. -/
inductive Phase where
  | kernel (ints : Bool)
  | entered (vector : Nat)
  | serving (vector : Nat)
  deriving DecidableEq

/-- The chips and the processor, with the vectors accepted and the vectors handled so far. -/
structure System where
  pics : Pair
  phase : Phase
  accepted : List Nat
  handled : List Nat

/-- Steps of the devices, of the kernel, and of the processor; `irqDisable` and `irqEnable` may
also be called by a handler. In `acceptLate` the slave loses its request while the processor
acknowledges it. -/
inductive Act where
  | request (line : Nat) (on : Bool)
  | irqDisable (no : Nat)
  | irqEnable (no : Nat)
  | setInts (on : Bool)
  | accept
  | acceptLate (line : Nat)
  | sendEoi
  | handle

def enter (s : System) (r : Nat × Pair) : System :=
  { s with pics := r.2, phase := .entered r.1, accepted := s.accepted ++ [r.1] }

/-- The gates of `irq0` to `irq15`. -/
def IsIrq (vector : Nat) : Prop := 0x20 ≤ vector ∧ vector < 0x30

instance (vector : Nat) : Decidable (IsIrq vector) := inferInstanceAs (Decidable (_ ∧ _))

/-- Line 2 of the master is the output of the slave and no device's. -/
inductive Step (s : System) : Act → System → Prop
  | request {line : Nat} (on : Bool) (hline : line < 16) (h2 : line ≠ 2) :
    Step s (.request line on) { s with pics := request s.pics line on }
  | irqDisable {no : Nat} (hno : no < 16) (h : ∀ v, s.phase ≠ .entered v) :
    Step s (.irqDisable no) { s with pics := irqDisable s.pics no }
  | irqEnable {no : Nat} (hno : no < 16) (h : ∀ v, s.phase ≠ .entered v) :
    Step s (.irqEnable no) { s with pics := irqEnable s.pics no }
  | setInts {ints : Bool} (on : Bool) (h : s.phase = .kernel ints) :
    Step s (.setInts on) { s with phase := .kernel on }
  | accept (h : s.phase = .kernel true) : Step s .accept (enter s (inta s.pics))
  | acceptLate {line : Nat} (h : s.phase = .kernel true)
    (hready : s.pics.master.ready s.pics.requests = some line)
    (hslave : bit s.pics.master.cascade line = true) :
    Step s (.acceptLate line) (enter s (s.pics.slave.offset.toNat + 7,
      { s.pics with master := s.pics.master.take line }))
  | sendEoi {vector : Nat} (h : s.phase = .entered vector) (hirq : IsIrq vector) :
    Step s .sendEoi
      { s with pics := picSendEoi s.pics (vector - 0x20), phase := .serving vector }
  | handle {vector : Nat} (h : s.phase = .serving vector) :
    Step s .handle { s with phase := .kernel true, handled := s.handled ++ [vector] }

/-- The controllers after `irq_init`, which runs with interrupts off. -/
def start (p : Pair) : System := ⟨picRemap p 0x20 0x28, .kernel false, [], []⟩

end Foos.Pic
