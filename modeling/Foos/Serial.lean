import Mathlib.Data.List.Basic
import Foos.Transition

/-! `kernel/dev/serial.c` and the chip behind its ports, one port access after the other: the
kernel sends and reads, an interrupt handler may send at any point of it, and the line goes on by
itself. -/
namespace Foos.Serial
open Transition

def SERIAL_PORT : Nat := 0x3F8
def SERIAL_DATA : Nat := SERIAL_PORT
def SERIAL_INT : Nat := SERIAL_PORT + 1
def SERIAL_FIFO : Nat := SERIAL_PORT + 2
def SERIAL_LINE : Nat := SERIAL_PORT + 3
def SERIAL_LINESTAT : Nat := SERIAL_PORT + 5

/-- A 16550: its registers, the bytes that wait to be sent (`thr`) and to be read (`rbr`), the
bytes that have gone out on the line, those that found no room, and the error bits of the line
status. -/
structure Uart where
  ier : UInt8
  fcr : UInt8
  lcr : UInt8
  divisorLow : UInt8
  divisorHigh : UInt8
  thr : List UInt8
  line : List UInt8
  rbr : List UInt8
  lost : List UInt8
  errors : UInt8
  deriving DecidableEq

namespace Uart

/-- Bit 7 of the line control puts the divisor in the place of the data. -/
def dlab (u : Uart) : Bool := u.lcr &&& 0x80 ≠ 0

/-- With its FIFOs enabled the chip holds 16 bytes in each direction. -/
def capacity (u : Uart) : Nat := if u.fcr &&& 1 ≠ 0 then 16 else 1

def outb (u : Uart) (port : Nat) (v : UInt8) : Uart :=
  if port = SERIAL_DATA then
    if u.dlab then { u with divisorLow := v }
    else if u.thr.length < u.capacity then { u with thr := u.thr ++ [v] }
    else { u with lost := u.lost ++ [v] }
  else if port = SERIAL_INT then
    if u.dlab then { u with divisorHigh := v } else { u with ier := v }
  else if port = SERIAL_FIFO then
    { u with
      fcr := v
      rbr := if v &&& 2 ≠ 0 then [] else u.rbr
      thr := if v &&& 4 ≠ 0 then [] else u.thr }
  else if port = SERIAL_LINE then { u with lcr := v }
  else u

/-- `inb(SERIAL_LINESTAT)` -/
def linestat (u : Uart) : UInt8 :=
  (if u.rbr = [] then 0 else 1) ||| (if u.thr = [] then 0x20 else 0) ||| (u.errors &&& 0xDE)

/-- `inb(SERIAL_DATA)`: the byte, and the chip without it. -/
def data (u : Uart) : UInt8 × Uart :=
  if u.dlab then (u.divisorLow, u) else (u.rbr.headD 0, { u with rbr := u.rbr.tail })

/-- The next byte goes out. -/
def transmit (u : Uart) : Uart :=
  match u.thr with
  | [] => u
  | c :: thr => { u with thr := thr, line := u.line ++ [c] }

def receives (u : Uart) : Prop := u.rbr.length < u.capacity

instance (u : Uart) : Decidable u.receives := inferInstanceAs (Decidable (_ < _))

/-- A byte comes in; without room it is dropped. -/
def receive (u : Uart) (c : UInt8) : Uart :=
  if u.receives then { u with rbr := u.rbr ++ [c] } else u

end Uart

/-- The port accesses of the driver; a loop on the line status is one of them. -/
inductive Op where
  | waitSend
  | out (c : UInt8)
  | waitData
  | readData
  deriving DecidableEq

/-- The end of `serial_send`. -/
def put (c : UInt8) : List Op := [.waitSend, .out c]

/-- `serial_send('\r')` comes first for a newline. -/
def serialSend (enabled : Bool) (c : UInt8) : List Op :=
  if enabled = false then []
  else (if c = 10 then put 13 else []) ++ put c

/-- `serial_write`, and `serial_print` on a string of these characters. -/
def serialWrite (enabled : Bool) (s : List UInt8) : List Op := s.flatMap (serialSend enabled)

/-- `readData` goes on with `serial_send`. -/
def serialRead (enabled : Bool) : List Op :=
  if enabled = false then [] else [.waitData, .readData]

/-- The ports of `serial_init`. -/
def serialInit (u : Uart) : Uart :=
  let u := u.outb SERIAL_INT 0
  let u := u.outb SERIAL_LINE 0x03
  u.outb SERIAL_FIFO 0xC7

/-- What goes out for a text. -/
def crlf (s : List UInt8) : List UInt8 := s.flatMap fun c => if c = 10 then [13, 10] else [c]

/-- The kernel, or the interrupt handler that has interrupted it. -/
inductive Thread where
  | kernel | handler
  deriving DecidableEq

/-- The chip and the driver. For each thread: what is left of its call; `due` is what its callers
have asked for so far, `written` the bytes in the order in which they were written, `got` the
bytes that `serial_read` has returned, `accepted` those that the chip had room for. -/
structure System where
  uart : Uart
  todo : Thread → List Op
  due : Thread → List UInt8
  written : List (Thread × UInt8)
  got : List UInt8
  accepted : List UInt8

/-- The thread has done its first access. -/
def System.next (s : System) (t : Thread) (ops : List Op) : System :=
  { s with todo := fun r => if r = t then ops else s.todo r }

def System.owe (s : System) (t : Thread) (cs : List UInt8) : System :=
  { s with due := fun r => if r = t then s.due r ++ cs else s.due r }

/-- One access of a thread that has `ops` left behind it. -/
def exec (s : System) (t : Thread) (ops : List Op) : Op → System
  | .waitSend => if s.uart.linestat &&& 0x20 = 0 then s else s.next t ops
  | .out c =>
    { s.next t ops with uart := s.uart.outb SERIAL_DATA c, written := s.written ++ [(t, c)] }
  | .waitData => if s.uart.linestat &&& 0x1 = 0 then s else s.next t ops
  | .readData =>
    let r := s.uart.data
    { ((s.next t (serialSend true r.1 ++ ops)).owe t (crlf [r.1])) with
      uart := r.2, got := s.got ++ [r.1] }

inductive Act where
  | write (t : Thread) (text : List UInt8)
  | read
  | access (t : Thread)
  | transmit
  | receive (c : UInt8)
  | errors (v : UInt8)

/-- An interrupt comes at any point of the kernel, which goes on when the handler has done all of
its accesses. -/
inductive Step (s : System) : Act → System → Prop
  | write {t : Thread} (text : List UInt8) (ht : s.todo t = []) (hh : s.todo .handler = []) :
    Step s (.write t text) ((s.next t (serialWrite true text)).owe t (crlf text))
  | read (ht : s.todo .kernel = []) (hh : s.todo .handler = []) :
    Step s .read (s.next .kernel (serialRead true))
  | access {t : Thread} {op : Op} {ops : List Op} (ht : s.todo t = op :: ops)
    (hh : t = .kernel → s.todo .handler = []) : Step s (.access t) (exec s t ops op)
  | transmit : Step s .transmit { s with uart := s.uart.transmit }
  | receive (c : UInt8) : Step s (.receive c)
    { s with
      uart := s.uart.receive c
      accepted := if s.uart.receives then s.accepted ++ [c] else s.accepted }
  | errors (v : UInt8) : Step s (.errors v) { s with uart := { s.uart with errors := v } }

def greeting : List UInt8 := "[serial] enabled!\n".toList.map fun c => UInt8.ofNat c.toNat

/-- `serial_init` runs before interrupts are enabled, on a chip in any state; its text is still to
be sent. -/
def start (u : Uart) : System where
  uart := { serialInit u with line := [], lost := [] }
  todo := fun t => if t = .kernel then serialWrite true greeting else []
  due := fun t => if t = .kernel then crlf greeting else []
  written := []
  got := []
  accepted := []

end Foos.Serial
