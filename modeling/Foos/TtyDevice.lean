import Foos.Device
import Foos.Typing

/-! The hooks of the terminal in the device table. The structure at its data pointer is kept in
the driver's state, apart from memory; of a run that reaches it through NULL, or through
`current_tty` after it was freed, nothing is known. -/
namespace Foos.Terminal
open Program ByteMemory Word32

/-- The statics of `tty.c` and what they reach, and the scancodes that the user will type. -/
structure Driver where
  con : Console
  init : Bool
  irq1 : Bool
  keys : List UInt8

def TTY_CLEAR : Nat := 0x00
def TTY_SETCSR : Nat := 0x01
def TTY_GETCSR : Nat := 0x81
def TTY_SETCOL : Nat := 0x02
def TTY_GETCOL : Nat := 0x82

/-- `sizeof(struct tty)`; the structure is packed. -/
def ttySize : Nat := 524

def onDriver (no : Nat) (f : Driver → Driver) : Code Driver Unit := modify fun w =>
  { w with driver := Function.update w.driver no (f (w.driver no)) }

def onConsole (no : Nat) (f : Console → Console) : Code Driver Unit :=
  onDriver no fun d => { d with con := f d.con }

def ttyEnableCursor (v : Vga) (start stop : UInt8) : Vga :=
  let v := outb v .VGA_CMD 0xA
  let v := outb v .VGA_DATA (inb v .VGA_DATA &&& 0xC0 ||| start)
  let v := outb v .VGA_CMD 0xB
  outb v .VGA_DATA (inb v .VGA_DATA &&& 0xE0 ||| stop)

/-- The handler is hooked and its interrupt enabled once. -/
def ttyInit (no : Nat) : Code Driver Int := do
  let init ← read fun w => (w.driver no).init
  if init then pure (-1)
  else do
    onDriver no fun d => { d with init := true, irq1 := true }
    pure 0

def ttydevOpen (h : Heap) (no _flags : Nat) : Code Driver Int := do
  let data ← read fun w => (w.devs no).data
  if data ≠ 0 then do
    setErrno EBUSY
    pure (-EBUSY)
  else do
    let _ ← ttyInit no
    let ptr ← kmalloc h ttySize
    onConsole no fun s => ttyCreate (ttyGetCursor (ttyEnableCursor s.vga 0xE 0xF)).2
    modify fun w => w.setData no ptr
    pure 0

def ttydevClose (h : Heap) (no : Nat) : Code Driver Int := do
  let data ← read fun w => (w.devs no).data
  kfree h data
  modify fun w => w.setData no 0
  onDriver no fun d => { d with irq1 := false }
  pure 0

def store16 (m : Mem) (a v : Nat) : Mem := store8 (store8 m a (byteOf v 0)) (a + 1) (byteOf v 1)

def ttydevIoctl (no request args : Nat) : Code Driver Int := do
  let ptr ← read fun w => (w.devs no).data
  if request = TTY_CLEAR then do
    if ptr = 0 then diverge
    else do
      onConsole no ttyClear
      pure 0
  else if request = TTY_SETCSR then do
    let offset ← ofMem fun m => load16 m args
    if ptr = 0 then diverge
    else do
      onConsole no fun s => ttyUpdateCursor s offset
      pure 0
  else if request = TTY_GETCSR then do
    let cursor ← read fun w => (w.driver no).con.vga.cursor
    onConsole no fun s => { s with vga := (ttyGetCursor s.vga).2 }
    onMem fun m => store16 m args cursor
    pure 0
  else if request = TTY_SETCOL then do
    let color ← ofMem fun m => m args
    if ptr = 0 then diverge
    else do
      onConsole no fun s => { s with tty := { s.tty with color := color } }
      pure 0
  else if request = TTY_GETCOL then do
    let color ← read fun w => (w.driver no).con.tty.color
    if ptr = 0 then diverge
    else do
      onMem fun m => store8 m args color
      pure 0
  else do
    setErrno Kmalloc.EINVAL
    pure (-Kmalloc.EINVAL)

def ttydevWrite (no buf len : Nat) : Code Driver Nat := do
  let ptr ← read fun w => (w.devs no).data
  let data ← ofMem fun m => (List.range len).map fun i => m (buf + i)
  if ptr = 0 then diverge
  else do
    onConsole no fun s => ttyWrite s data
    pure len

/-- What `tty_read` waits for: the end of a line. Keys behind the end of the tables or of the
line buffer are not waited for further. -/
inductive Wait where
  | line (s : Console) (keys : List UInt8)
  | forever
  | overrun

/-- The key has an entry in the tables, and there is room for its character and a NUL. -/
def HasRoom (s : Console) (scancode : UInt8) : Prop :=
  keyOf scancode = .char → scancode < 60 ∧ s.tty.bufptr < 511

instance (s : Console) (scancode : UInt8) : Decidable (HasRoom s scancode) :=
  inferInstanceAs (Decidable (_ → _))

/-- `while(!ptr->kbd.flush)`, with the interrupts of the keys meanwhile. -/
def whileNotFlush (s : Console) : List UInt8 → Wait
  | [] => if s.tty.kbd.flush then .line s [] else .forever
  | key :: keys =>
    if s.tty.kbd.flush then .line s (key :: keys)
    else if HasRoom s key then whileNotFlush (kbdIrq s key) keys
    else .overrun

def resetPtr (s : Console) : Console := { s with tty := { s.tty with bufptr := 0 } }

/-- The wait of `tty_read`; without the interrupt no key arrives. -/
def Driver.wait (d : Driver) : Wait :=
  whileNotFlush (resetPtr d.con) (if d.irq1 then d.keys else [])

def takeLine (s : Console) : Console :=
  { s with tty := { s.tty with kbd := { s.tty.kbd with flush := false }, tmp := 0 } }

def ttydevRead (no buf _off _len : Nat) : Code Driver Nat := do
  let ptr ← read fun w => (w.devs no).data
  let d ← read fun w => w.driver no
  if ptr = 0 then diverge
  else
    match d.wait with
    | .line s keys => do
      let size := ofInt s.tty.tmp
      onDriver no fun d =>
        { d with con := takeLine s, keys := if d.irq1 then keys else d.keys }
      onMem fun m => putBytes m buf (bytes s.tty.buf s.tty.tmp)
      pure size
    | _ => diverge

/-- `"tty"` -/
def ttyName : List UInt8 := [116, 116, 121]

def tty (h : Heap) : Device Driver where
  name := ttyName
  short := by decide
  chars := CString.chars_of_all (by decide)
  write := some ttydevWrite
  read := some ttydevRead
  openHook := some (ttydevOpen h)
  close := some (ttydevClose h)
  ioctl := some ttydevIoctl

/-- The device table of the kernel. -/
def table (h : Heap) : List (Device Driver) := devs h (tty h)

end Foos.Terminal
